/-
# `TinyLlm.Tok.Exported` — the tokenizer of an exported model

`add_tokenizer` writes four arrays, the engine resolves four offsets, and
`tq_tokenizer_init` reads words from there.  The arrays that it then sees carry
the pieces that were exported, so the search finds exactly these
(`tqLookup_exported`).
-/
import TinyLlm.Convert.RoundTrip
import TinyLlm.Tok.Init

namespace TinyLlm.Etq

open Bytes

section Model
variable {F R S : Type} {np : Numpy F} {f32 : R → UInt32} {c : Config R} {w : Weights F}
variable {pieces : List (List UInt8)} {scores : NdArray F} {file : List UInt8} {m : TqModel}

/-- A word of an array that was placed. -/
theorem word_placed {off : Nat} {vs : List Nat}
    (hslice : slice file off (vs.flatMap (toLE 4)).length =
    vs.flatMap (toLE 4)) {i v : Nat} (hi : vs[i]? = some v) (hv : v < 2 ^ 32) :
    (UInt32.ofNat (leAt file (off + 4 * i) 4)).toNat = v := by
  have hlt : i < vs.length := (List.getElem?_eq_some_iff.mp hi).1
  have hlen : (vs.flatMap (toLE 4)).length = vs.length * 4 :=
    length_flatMap_const (length_toLE 4) vs
  have hword : leAt file (off + 4 * i) 4 = v := by
    rw [← leAt_slice (by omega : 4 * i + 4 ≤ (vs.flatMap (toLE 4)).length), hslice]
    exact leAt_words hi hv
  rw [hword, UInt32.toNat_ofNat_of_lt' hv]

/-- The offsets that were written, as long as the blob is below 2^32 bytes. -/
theorem cumsum_get (hblob : pieces.flatten.length < 2 ^ 32) {i : Nat} (hi : i ≤ pieces.length) :
    (cumsum pieces)[i]? = some (pieces.take i).flatten.length := by
  have hlt := (@length_take_le pieces i).trans_lt hblob
  rw [cumsum, List.getElem?_map, List.getElem?_range (Nat.lt_succ_of_le hi), Option.map_some,
    Nat.mod_eq_of_lt hlt]

/-- **The tokenizer of an exported model** carries the exported pieces. -/
theorem tokPlaced_carries
    (htok : TokPlaced np (allTensors np c w (some (pieces, scores))) pieces scores m)
    (hplaced : ∀ u off, Placed (allTensors np c w (some (pieces, scores))) u off → 0 < off ∧
      (u.entry off).InRange ∧ slice file off u.payload.length = u.payload)
    (hvocab : m.vocabSize = pieces.length) (hcount : pieces.length < 2 ^ 32) (ofBits : UInt32 → S)
    (bytes : UInt64) {bufBytes : Nat} (hbuf : 64 ≤ bufBytes) :
    ∃ T, tqTokenizerInit ofBits (tqStoreInitMapped file bytes) m bufBytes = .ok T ∧
      T.Carries pieces := by
  obtain ⟨hscores, -, -⟩ := hplaced _ _ htok.scores
  obtain ⟨hoffs, -, hoffsAt⟩ := hplaced _ _ htok.offs
  obtain ⟨hblob, hblobIn, hblobAt⟩ := hplaced _ _ htok.blob
  obtain ⟨hsorted, -, hsortedAt⟩ := hplaced _ _ htok.sorted
  -- the length of the blob is a dimension of its entry
  have hblobLt : pieces.flatten.length < 2 ^ 32 :=
    hblobIn.fields (4, pieces.flatten.length) (List.mem_of_getElem? (i := 2) rfl)
  have hmissing : ¬ (m.tokScores = 0 ∨ m.tokOffs = 0 ∨ m.tokBlob = 0 ∨ m.tokSorted = 0) := by
    omega
  unfold tqTokenizerInit tqStoreInitMapped
  dsimp only
  rw [if_neg hmissing, if_neg (Nat.not_lt.mpr hbuf)]
  refine ⟨_, rfl, ?_, ?_, ?_⟩
  · exact congrArg Int.ofNat hvocab
  · intro i hi
    refine tqPiece_eq (fun k hk => ?_) ?_ hi
    · exact word_placed hoffsAt (cumsum_get hblobLt hk)
        ((@length_take_le pieces k).trans_lt hblobLt)
    · show slice (file.drop m.tokBlob) 0 _ = _
      rw [slice, List.drop_zero]
      exact hblobAt
  · intro k hk
    have hlt := sorted_lt hk
    have hget : (buildSorted pieces)[k]? = some ((buildSorted pieces).getD k 0) := by
      rw [List.getD_eq_getElem?_getD,
        List.getElem?_eq_getElem (by rw [length_buildSorted]; exact hk)]
      rfl
    exact word_placed hsortedAt hget (hlt.trans hcount)

theorem tokenizer_exported (hc : c.Valid) (hw : w.Shaped c) (hlen : pieces.length = c.vocabSize)
    (h : writeModel np f32 c w (some (pieces, scores)) = .ok file) {arena : TqArena}
    (hmod : 16 ∣ arena.sizeMod) (hcap : arena.cap < arena.sizeMod)
    (hroom : c.nLayers * tqLayerOffsetsBytes + 16 ≤ arena.cap) (ofBits : UInt32 → S)
    {bufBytes : Nat} (hbuf : 64 ≤ bufBytes) (t : TqTile) :
    let st := tqStoreInitMapped file (UInt64.ofNat file.length)
    ∃ m T, (tqModelOpen st arena).exec t = (.ok m, t) ∧
      tqTokenizerInit ofBits st m bufBytes = .ok T ∧
      T.Carries pieces := by
  intro st
  have htok : ∀ p, some (pieces, scores) = some p → p.1.length = c.vocabSize := by
    rintro p ⟨⟩
    exact hlen
  obtain ⟨m, hacc, hres, hplaced⟩ := writeModel_resolved hc hw htok h hmod hcap hroom
  have hopen : (tqModelOpen st arena).exec t = (.ok m, t) := tqModelOpen_mapped.mpr ⟨hacc, rfl⟩
  have hvocab : m.vocabSize = pieces.length := by
    obtain ⟨-, -, -, -, -, hvocab, -⟩ := hres.dims
    rw [hvocab, hlen]
  have hcount : pieces.length < 2 ^ 32 := by
    have hsized := (tqModelOpen_sized hopen).vocabSize_lt
    omega
  obtain ⟨T, hinit, hcarries⟩ := tokPlaced_carries (hres.tokenizer _ _ rfl) hplaced
    hvocab hcount ofBits (UInt64.ofNat file.length) hbuf
  exact ⟨m, T, hopen, hinit, hcarries⟩

/-- **Piece lookup** across the languages: on the arrays of an exported file a
byte string is found if and only if it is one of the pieces, and the piece of
the token that is found is that string. -/
theorem tqLookup_exported (hc : c.Valid) (hw : w.Shaped c) (hlen : pieces.length = c.vocabSize)
    (h : writeModel np f32 c w (some (pieces, scores)) = .ok file) {arena : TqArena}
    (hmod : 16 ∣ arena.sizeMod) (hcap : arena.cap < arena.sizeMod)
    (hroom : c.nLayers * tqLayerOffsetsBytes + 16 ≤ arena.cap) (ofBits : UInt32 → S)
    {bufBytes : Nat} (hbuf : 64 ≤ bufBytes) (t : TqTile) :
    let st := tqStoreInitMapped file (UInt64.ofNat file.length)
    ∃ m T, (tqModelOpen st arena).exec t = (.ok m, t) ∧
      tqTokenizerInit ofBits st m bufBytes = .ok T ∧
      ∀ s, (0 ≤ tqLookup T s ↔ s ∈ pieces) ∧ (s ∉ pieces → tqLookup T s = -1) ∧
        (0 ≤ tqLookup T s → pieces[(tqLookup T s).toNat]? = some s ∧
        tqPiece T (tqLookup T s) = s) := by
  intro st
  obtain ⟨m, T, hopen, hinit, hcarries⟩ := tokenizer_exported hc hw hlen h hmod hcap
    hroom ofBits hbuf t
  refine ⟨m, T, hopen, hinit, fun s => ?_⟩
  rcases hcarries.tqLookup s with ⟨hs, i, hi, heq, hpiece⟩ | ⟨hs, heq⟩
  · rw [heq, Int.toNat_natCast, hcarries.piece i hi, hpiece]
    refine ⟨⟨fun _ => hs, fun _ => Int.natCast_nonneg i⟩, fun hno => absurd hs hno,
      fun _ => ⟨?_, rfl⟩⟩
    rw [List.getElem?_eq_getElem hi, ← hpiece, List.getD_eq_getElem _ _ hi]
  · rw [heq]
    exact ⟨⟨fun hpos => absurd hpos (by decide), fun hin => absurd hin hs⟩, fun _ => rfl,
      fun hpos => absurd hpos (by decide)⟩

end Model

/-- The one piece of a small model. -/
theorem tqLookup_exported_small : ∃ file m T, writeModel zeroNumpy id (smallConfig 32 32 1 1 4)
      (zeroWeights (smallConfig 32 32 1 1 4)) smallTok = .ok file ∧
    (tqModelOpen (tqStoreInitMapped file (UInt64.ofNat file.length)) ⟨1, 88, 2 ^ 64⟩).exec ⟨0, []⟩ =
      (.ok m, ⟨0, []⟩) ∧
    tqTokenizerInit id (tqStoreInitMapped file (UInt64.ofNat file.length)) m 64 = .ok T ∧
    tqPiece T (tqLookup T [97]) = [97] := by
  obtain ⟨file, hfile⟩ := smallModel_written smallConfig_valid smallConfig_fits (by decide)
  obtain ⟨m, T, hopen, hinit, hall⟩ := @tqLookup_exported UInt32 UInt32 UInt32 zeroNumpy
    id _ _ _ _ file smallConfig_valid (zeroWeights_shaped _) rfl hfile ⟨1, 88, 2 ^ 64⟩ (by decide)
    (by decide) (Nat.le_refl 88) id 64 (Nat.le_refl 64) ⟨0, []⟩
  obtain ⟨hfound, -, hpiece⟩ := hall [97]
  exact ⟨file, m, T, hfile, hopen, hinit, (hpiece (hfound.mpr List.mem_cons_self)).2⟩

end TinyLlm.Etq
