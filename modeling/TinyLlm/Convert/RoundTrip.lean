/-
# `TinyLlm.Convert.RoundTrip` — an exported model, opened and read back

The engine opens an exported file in a mapped store, and each slot has the
offset at which the writer placed that very tensor; the Python reader finds
the configuration and the tensors (`writeModel_open`).
-/
import TinyLlm.Convert.Reader
import TinyLlm.Convert.Total

namespace TinyLlm.Etq

open Bytes Bump

section Model
variable {F R : Type} {np : Numpy F} {f32 : R → UInt32} {c : Config R} {w : Weights F}
variable {tok : Option (List (List UInt8) × NdArray F)}

/-! ## Every slot -/

/-- The offset of a want, among the offsets of the model. -/
theorem walked_offset {ts : List Tensor} {i : Nat} {want : TqWant}
    (hi : (tqWants (c.dims f32 ts))[i]? = some want) {e : TqTensorEntry}
    (hsettle : want.settle (entries ts) = want.take e) :
    (walked f32 c ts).offsetOf i = e.offset := by
  unfold TqWalk.offsetOf walked
  dsimp only
  rw [List.getElem?_map, hi, Option.map_some, hsettle]
  rfl

/-- The tokenizer arrays of a model are those that were written. -/
structure TokPlaced (np : Numpy F) (ts : List Tensor) (pieces : List (List UInt8))
    (scores : NdArray F) (m : TqModel) : Prop where
  scores : Placed ts ⟨ascii "tok.scores", tqDtF32, [pieces.length], tobytes np scores⟩ m.tokScores
  offs : Placed ts ⟨ascii "tok.offs", tqDtU32, [pieces.length + 1],
    (cumsum pieces).flatMap (toLE 4)⟩ m.tokOffs
  blob : Placed ts ⟨ascii "tok.blob", tqDtU8, [pieces.flatten.length], pieces.flatten⟩ m.tokBlob
  sorted : Placed ts ⟨ascii "tok.sorted", tqDtU32, [pieces.length],
    (buildSorted pieces).flatMap (toLE 4)⟩ m.tokSorted
  blobBytes : m.tokBlobBytes = pieces.flatten.length

/-- A model in which every slot has the offset of its own tensor. -/
structure Resolved (np : Numpy F) (f32 : R → UInt32) (c : Config R) (w : Weights F)
    (tok : Option (List (List UInt8) × NdArray F)) (ts : List Tensor) (m : TqModel) : Prop where
  header : m.hdr = c.header f32 ts
  dims : m.dim = c.dim ∧ m.hiddenDim = c.hiddenDim ∧ m.nLayers = c.nLayers ∧ m.nHeads = c.nHeads ∧
    m.nKvHeads = c.nKvHeads ∧ m.vocabSize = c.vocabSize ∧ m.seqLen = c.seqLen ∧ m.qtype = c.qtype ∧
    m.headSize = c.headSize ∧ m.kvDim = c.kvDim
  tokEmb : Placed ts (quantized np c.qtype (ascii "tok_emb") w.tokEmb) m.tokEmb
  rmsFinal : Placed ts (plain np (ascii "rms_final") w.rmsFinal) m.rmsFinal
  classifier : c.sharedClassifier = 0 → ∃ cls, w.cls = some cls ∧
    Placed ts (quantized np c.qtype (ascii "cls") cls) m.classifier
  shared : c.sharedClassifier ≠ 0 → m.classifier = m.tokEmb
  layers : ∀ l < c.nLayers, ∀ s, Placed ts (layerTensor np c.qtype w l s) (m.layers l s)
  tokenizer : ∀ pieces scores, tok = some (pieces, scores) → TokPlaced np ts pieces scores m

theorem walked_resolved (hc : c.Valid) (hw : w.Shaped c)
    (hcls : c.sharedClassifier = 0 → w.cls.isSome)
    (htok : ∀ p, tok = some p → p.1.length = c.vocabSize) {ts : List Tensor}
    (hts : ts = allTensors np c w tok) (hin : ∀ e ∈ entries ts, e.InRange) :
    Resolved np f32 c w tok ts (tqResolve (c.dims f32 ts) (walked f32 c ts)) := by
  have hnames : ∀ t ∈ globalTensors np c w ++ tokTensors np tok,
      ∃ v ∈ tqWants (c.dims f32 ts), t.name = v.name := by
    intro t ht
    obtain ⟨v, hv, hname, -⟩ := @global_fits F R np f32 c w tok hc hw htok ts t ht
    exact ⟨v, hv, hname⟩
  have hslot : ∀ (i : Nat) (t : Tensor) (want : TqWant), (tqWants (c.dims f32 ts))[i]? = some want →
      t.name = want.name → t ∈ globalTensors np c w ++ tokTensors np tok →
      Placed ts t ((walked f32 c ts).offsetOf i) := by
    intro i t want hi hname ht
    obtain ⟨r, hr, hsettle⟩ := settle_placed hc hts ht (List.mem_of_getElem? hi) hname hnames
    exact ⟨r, hr, (walked_offset hi hsettle).symm⟩
  constructor
  · rfl
  · exact ⟨rfl, rfl, rfl, rfl, rfl, rfl, rfl, rfl, rfl, rfl⟩
  · exact hslot 0 _ _ rfl rfl List.mem_cons_self
  · exact hslot 1 _ _ rfl rfl (List.mem_cons_of_mem _ List.mem_cons_self)
  · intro hown
    obtain ⟨cls, hsome⟩ := Option.isSome_iff_exists.mp (hcls hown)
    refine ⟨cls, hsome, ?_⟩
    have hoff : (tqResolve (c.dims f32 ts) (walked f32 c ts)).classifier =
        (walked f32 c ts).offsetOf 2 :=
      if_neg (not_not.mpr hown)
    rw [hoff]
    refine hslot 2 _ _ rfl rfl (List.mem_append_left _ (List.mem_append_right _ ?_))
    unfold clsTensors
    rw [if_pos hown, hsome]
    exact List.mem_singleton.mpr rfl
  · exact fun hshared => if_pos hshared
  · exact fun l hl s => layersAfter_placed hc hts hnames hl s
  · rintro pieces scores rfl
    have hmem : ∀ t ∈ tokTensors np (some (pieces, scores)),
        t ∈ globalTensors np c w ++ tokTensors np (some (pieces, scores)) :=
      fun t ht => List.mem_append_right _ ht
    refine ⟨hslot 3 _ _ rfl rfl (hmem _ (List.mem_of_getElem? (i := 0) rfl)),
      hslot 4 _ _ rfl rfl (hmem _ (List.mem_of_getElem? (i := 1) rfl)),
      hslot 5 _ _ rfl rfl (hmem _ (List.mem_of_getElem? (i := 2) rfl)),
      hslot 6 _ _ rfl rfl (hmem _ (List.mem_of_getElem? (i := 3) rfl)), ?_⟩
    obtain ⟨r, hr, hsettle⟩ := settle_placed hc hts (hmem _ (List.mem_of_getElem? (i := 2) rfl))
      (List.mem_of_getElem? (i := 5) rfl) rfl hnames
    -- the length fits a word, as the shape of the entry was packed into one
    have hentry := hin _ (mem_entriesFrom.mpr ⟨_, hr, rfl⟩)
    have hlt : pieces.flatten.length < 2 ^ 32 :=
      hentry.fields (4, pieces.flatten.length) (List.mem_of_getElem? (i := 2) rfl)
    show ((walked f32 c ts).wants[5]?).elim 0 TqWant.nbytes = _
    unfold walked
    dsimp only
    rw [List.getElem?_map]
    show (TqWant.settle (entries ts) _).nbytes = _
    rw [hsettle]
    exact Nat.mod_eq_of_lt hlt

/-- **An exported file is resolved**: the model that it opens as has in every
slot the offset of its own tensor, and there lies the payload. -/
theorem writeModel_resolved (hc : c.Valid) (hw : w.Shaped c)
    (htok : ∀ p, tok = some p → p.1.length = c.vocabSize) {file : List UInt8}
    (h : writeModel np f32 c w tok = .ok file) {arena : TqArena} (hmod : 16 ∣ arena.sizeMod)
    (hcap : arena.cap < arena.sizeMod) (hroom : c.nLayers * tqLayerOffsetsBytes + 16 ≤ arena.cap) :
    ∃ m, Accepted file (UInt64.ofNat file.length) arena m ∧
      Resolved np f32 c w tok (allTensors np c w tok) m ∧
      ∀ u off, Placed (allTensors np c w tok) u off → 0 < off ∧ (u.entry off).InRange ∧
        slice file off u.payload.length = u.payload := by
  obtain ⟨hwrite, hacc⟩ := writeModel_accepted hc hw htok h hmod hcap hroom
  obtain ⟨ts, hts, -⟩ := bind_eq_ok.mp h
  obtain ⟨hcls, -, -⟩ := modelTensors_ok np c w tok hts
  obtain ⟨data, -, hdesc, -, hlies⟩ := write_image hwrite
  refine ⟨_, hacc, walked_resolved hc hw hcls htok rfl hdesc.entries, ?_⟩
  rintro u off ⟨r, hr, rfl⟩
  have hstart := start_le (List.of_mem_zip hr).2
  refine ⟨?_, hdesc.entries _ (mem_entriesFrom.mpr ⟨_, hr, rfl⟩), (hlies _ hr).slice⟩
  unfold tableEnd tqHeaderBytes at hstart
  omega

/-- **The engine and the reader** take back what `write_model` wrote: the file
opens, every slot has the offset at which the writer placed its tensor, there
lies the payload, and the reader finds the configuration and the tensors. -/
theorem writeModel_open (hc : c.Valid) (hw : w.Shaped c)
    (htok : ∀ p, tok = some p → p.1.length = c.vocabSize) {file : List UInt8}
    (h : writeModel np f32 c w tok = .ok file) {arena : TqArena} (hmod : 16 ∣ arena.sizeMod)
    (hcap : arena.cap < arena.sizeMod) (hroom : arena.cap = c.nLayers * tqLayerOffsetsBytes + 16)
    (float : UInt32 → R) (t : TqTile) :
    let ts := allTensors np c w tok
    (∃ m, (tqModelOpen (tqStoreInitMapped file (UInt64.ofNat file.length)) arena).exec t =
      (.ok m, t) ∧
      Resolved np f32 c w tok ts m) ∧
    (∀ u off, Placed ts u off → slice file off u.payload.length = u.payload) ∧
    ∃ r, read float file = .ok r ∧ r.cfg = c.read f32 float ∧ r.tensors = ts := by
  intro ts
  obtain ⟨m, hacc, hres, hplaced⟩ := writeModel_resolved hc hw htok h hmod hcap hroom.ge
  obtain ⟨hwrite, -⟩ := writeModel_accepted hc hw htok h hmod hcap hroom.ge
  obtain ⟨ts', hts, -⟩ := bind_eq_ok.mp h
  obtain ⟨-, hvalid, hall⟩ := modelTensors_ok np c w tok hts
  have hlayers := hc.layerNames
  refine ⟨⟨m, tqModelOpen_mapped.mpr ⟨hacc, rfl⟩, hres⟩, fun u off hu => (hplaced u off hu).2.2, ?_⟩
  · refine read_write float (fun u hu => hvalid u (hall ▸ hu)) (fun u hu => ?_) hwrite
    refine cstr_packName ?_ (hvalid u (hall ▸ hu)).name
    rcases mem_allTensors.mp hu with hglobal | ⟨l, hl, s, rfl⟩
    · obtain ⟨v, hv, hname, -⟩ := @global_fits F R np f32 c w tok hc hw htok ts u hglobal
      rw [hname]
      exact (want_name hv).1
    · rw [layerTensor_name]
      exact layerName_nonzero (by omega) s

end Model

theorem smallConfig_valid : (smallConfig 32 32 1 1 4).Valid := by
  constructor <;> decide

theorem smallConfig_fits : (smallConfig 32 32 1 1 4).Fits := by
  constructor <;> decide

/-- A single layer of width 32. -/
theorem writeModel_open_small : ∃ file m t, writeModel zeroNumpy id (smallConfig 32 32 1 1 4)
      (zeroWeights (smallConfig 32 32 1 1 4)) smallTok = .ok file ∧
    (tqModelOpen (tqStoreInitMapped file (UInt64.ofNat file.length)) ⟨1, 88, 2 ^ 64⟩).exec t =
      (.ok m, t) := by
  obtain ⟨file, hfile⟩ := smallModel_written smallConfig_valid smallConfig_fits (by decide)
  obtain ⟨⟨m, hm, -⟩, -⟩ := @writeModel_open UInt32 UInt32 zeroNumpy id _ _ _ smallConfig_valid
    (zeroWeights_shaped _) (fun p hp => by cases hp; rfl) file hfile ⟨1, 88, 2 ^ 64⟩ (by decide)
    (by decide) rfl id ⟨0, []⟩
  exact ⟨file, m, ⟨0, []⟩, hfile, hm⟩

end TinyLlm.Etq
