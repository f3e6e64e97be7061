/-
# `TinyLlm.Convert.Agreement` — the oracle and the engine on an exported file

What `write_model` wrote, `Reader` finds by name and the engine by offset, and
they find the same bytes (`writeModel_same`).  Both compute the transformer of
these bytes; so in exact arithmetic the engine, with a cache of floats, shows
for every text the logits of the oracle (`generateLogits_tqForward`).

The heads have to be of even size: numpy refuses to rotate others, and the
engine leaves their last element as it is.
-/
import TinyLlm.Convert.Oracle
import TinyLlm.Convert.RoundTrip
import TinyLlm.Kernels.Quantize

namespace TinyLlm.Etq

open Bytes

/-! ## By name -/

/-- The one tensor of its name. -/
theorem get_eq {R : Type} {r : Reader R} {t : Tensor} (ht : t ∈ r.tensors)
    (hunique : ∀ u ∈ r.tensors, u.name = t.name → u = t) : r.get t.name = some t := by
  have hsome : (r.tensors.reverse.find? fun u => u.name = t.name).isSome :=
    List.find?_isSome.mpr ⟨t, List.mem_reverse.mpr ht, decide_eq_true rfl⟩
  obtain ⟨u, hu⟩ := Option.isSome_iff_exists.mp hsome
  have hname : u.name = t.name := by simpa using List.find?_some hu
  unfold Reader.get
  rw [hu, hunique u (List.mem_reverse.mp (List.mem_of_find?_eq_some hu)) hname]

theorem Tensor.Valid.vector {t : Tensor} (h : t.Valid) (hdtype : t.dtype = tqDtF32) :
    t.payload.length = 4 * t.shape.prod := by
  have hpay := h.payload
  unfold dtypeNbytes at hpay
  rw [if_pos (.inl hdtype)] at hpay
  rw [← Except.ok.inj hpay, Nat.mul_comm]

theorem Tensor.Valid.matrix {t : Tensor} (h : t.Valid) {qt n d : Nat}
    (hqt : qt = tqDtQ40 ∨ qt = tqDtQ80) (hdtype : t.dtype = qt) (hshape : t.shape = [d, n])
    (hn : tqGroupSize ∣ n) (hlt : n < 2 ^ 31) :
    t.payload.length = tqDtypeNbytes qt n * d := by
  have hpay := h.payload
  have hprod : t.shape.prod = d * n := by rw [hshape, List.prod_cons, List.prod_singleton]
  have hwhole : ¬ d * n % tqGroupSize ≠ 0 := not_not.mpr (Nat.mod_eq_zero_of_dvd (hn.mul_left d))
  unfold dtypeNbytes at hpay
  rw [hdtype, hprod, Nat.mul_div_assoc d hn] at hpay
  rcases hqt with rfl | rfl
  · rw [if_neg (by decide), if_neg (by decide), if_neg (by decide), if_pos rfl,
      if_neg hwhole] at hpay
    rw [← Except.ok.inj hpay, tqDtypeNbytes_blocks hn hlt (.inr ⟨rfl, rfl⟩)]
    ring
  · rw [if_neg (by decide), if_neg (by decide), if_pos rfl, if_neg hwhole] at hpay
    rw [← Except.ok.inj hpay, tqDtypeNbytes_blocks hn hlt (.inl ⟨rfl, rfl⟩)]
    ring

section Model
variable {F R : Type} {wnp : Numpy F} {f32 : R → UInt32} {c : Config R} {w : Weights F}
variable {tok : Option (List (List UInt8) × NdArray F)}

theorem spells_congr {e e' : TqTensorEntry} (h : e.name = e'.name) : e.spells = e'.spells := by
  unfold TqTensorEntry.spells
  rw [h]

/-- The tensors of a model have different names. -/
theorem tensor_unique (hc : c.Valid) (hw : w.Shaped c)
    (htok : ∀ p, tok = some p → p.1.length = c.vocabSize) {t t' : Tensor}
    (ht : t ∈ allTensors wnp c w tok) (ht' : t' ∈ allTensors wnp c w tok) (h : t.name = t'.name) :
    t = t' := by
  have hlayers := hc.layerNames
  have hspells : (t.entry 0).spells = (t'.entry 0).spells := spells_congr (congrArg packName h)
  have hglobal : ∀ u ∈ globalTensors wnp c w ++ tokTensors wnp tok, (u.entry 0).spells = none := by
    intro u hu
    obtain ⟨want, hwant, hname, -⟩ := @global_fits F R wnp (fun _ => 0) c w tok hc hw htok [] u hu
    exact spells_global hwant hname 0
  rcases mem_allTensors.mp ht with hg | ⟨l, hl, s, rfl⟩ <;>
    rcases mem_allTensors.mp ht' with hg' | ⟨l', hl', s', rfl⟩
  · exact global_unique hg hg' h
  · rw [hglobal t hg, spells_layer (by omega)] at hspells
    cases hspells
  · rw [hglobal t' hg', spells_layer (by omega)] at hspells
    cases hspells
  · rw [spells_layer (by omega), spells_layer (by omega)] at hspells
    cases hspells
    rfl

/-! ## By offset -/

/-- The tensor of a slot, in the words of the engine. -/
theorem layerTensor_slot (hw : w.Shaped c) {ts : List Tensor} {m : TqModel} (hm : m.Sized)
    (hres : Resolved wnp f32 c w tok ts m) {l : Nat} (hl : l < c.nLayers) (s : TqLayerSlot) :
    if s.cols m = 0 then
      (layerTensor wnp c.qtype w l s).dtype = tqDtF32 ∧
      (layerTensor wnp c.qtype w l s).shape = [s.rows m]
    else
      (layerTensor wnp c.qtype w l s).dtype = m.qtype ∧
        (layerTensor wnp c.qtype w l s).shape = [s.rows m, s.cols m] := by
  obtain ⟨hdim, hhidden, -, -, -, -, -, hqtype, -, hkvDim⟩ := hres.dims
  have hdim0 : m.dim ≠ 0 := hm.dim_pos.ne'
  have hhidden0 : m.hiddenDim ≠ 0 := hm.hiddenDim_pos.ne'
  have hshape : (layerTensor wnp c.qtype w l s).shape = c.shape s := by
    have hshaped := hw.layers l hl s
    cases s <;> exact hshaped
  rw [hshape, hqtype]
  cases s <;> simp only [TqLayerSlot.cols, TqLayerSlot.rows, Config.shape, hdim0, hhidden0,
    if_true, if_false] <;>
    refine ⟨rfl, ?_⟩ <;> simp only [hdim, hhidden, hkvDim]

theorem cols_blocks {m : TqModel} (hm : m.Sized) {s : TqLayerSlot} (h : s.cols m ≠ 0) :
    tqGroupSize ∣ s.cols m ∧ s.cols m < 2 ^ 31 := by
  cases s
  case rmsAtt => exact absurd rfl h
  case rmsFfn => exact absurd rfl h
  case w2 => exact ⟨hm.hiddenDim_blocks, hm.hiddenDim_lt⟩
  all_goals exact ⟨hm.dim_blocks, hm.dim_lt⟩

/-- The reader has the tensors, and the file has each where it was placed. -/
structure Stored (ts : List Tensor) (r : Reader R) (file : List UInt8) : Prop where
  tensors : r.tensors = ts
  valid : ∀ t ∈ ts, t.Valid
  unique : ∀ t ∈ ts, ∀ u ∈ ts, u.name = t.name → u = t
  slices : ∀ t off, Placed ts t off → slice file off t.payload.length = t.payload

section Stored
variable {ts : List Tensor} {r : Reader R} {file : List UInt8} {t : Tensor} {off : Nat}

theorem Stored.get (h : Stored ts r file) (ht : Placed ts t off) :
    r.get t.name = some t ∧ t.Valid := by
  obtain ⟨region, hmem, -⟩ := ht
  have hmem := (List.of_mem_zip hmem).1
  refine ⟨get_eq (h.tensors.symm ▸ hmem) fun u hu => ?_, h.valid t hmem⟩
  exact h.unique t hmem u (h.tensors ▸ hu)

theorem Stored.vector (h : Stored ts r file) (ht : Placed ts t off) {n : Nat}
    (hdtype : t.dtype = tqDtF32) (hshape : t.shape = [n]) : HasVector r file t.name off n := by
  obtain ⟨hfound, hvalid⟩ := h.get ht
  have hprod : t.shape.prod = n := by rw [hshape, List.prod_singleton]
  have hlen := hvalid.vector hdtype
  rw [hprod] at hlen
  exact ⟨t, hfound, hdtype, hprod, by rw [← hlen, h.slices t off ht], hlen⟩

theorem Stored.matrix (h : Stored ts r file) (ht : Placed ts t off) {m : TqModel}
    (hm : m.Sized) {n d : Nat} (hdtype : t.dtype = m.qtype) (hshape : t.shape = [d, n])
    (hn : tqGroupSize ∣ n ∧ n < 2 ^ 31) :
    HasMatrix r file m t.name off n d := by
  obtain ⟨hfound, hvalid⟩ := h.get ht
  have hlen := hvalid.matrix hm.quantized hdtype hshape hn.1 hn.2
  exact ⟨t, hfound, hdtype, by rw [← hlen, h.slices t off ht], hlen⟩

end Stored

/-- **One model**, where the tensors are stored as the slots say. -/
theorem Resolved.same (hw : w.Shaped c) {ts : List Tensor} {m : TqModel} (hm : m.Sized)
    (hres : Resolved wnp f32 c w tok ts m) (heven : 2 ∣ c.headSize) {r : Reader R}
    {file : List UInt8} (hstored : Stored ts r file) {np : RefNumpy R}
    (hcfg : r.cfg = c.read f32 np.float32) : SameModel r file m np := by
  obtain ⟨hdim, hhidden, hnLayers, hnHeads, hnKvHeads, hvocab, -, hqtype, hheadSize, -⟩ := hres.dims
  have hcols : tqGroupSize ∣ m.dim ∧ m.dim < 2 ^ 31 := ⟨hm.dim_blocks, hm.dim_lt⟩
  have htokEmb : HasMatrix r file m (ascii "tok_emb") m.tokEmb m.dim m.vocabSize :=
    hstored.matrix hres.tokEmb hm hqtype.symm (hw.tokEmb.trans (by rw [hvocab, hdim])) hcols
  constructor
  case dim => rw [hcfg, hdim]; rfl
  case hiddenDim => rw [hcfg, hhidden]; rfl
  case nLayers => rw [hcfg, hnLayers]; rfl
  case nHeads => rw [hcfg, hnHeads]; rfl
  case nKvHeads => rw [hcfg, hnKvHeads]; rfl
  case vocabSize => rw [hcfg, hvocab]; rfl
  case ropeTheta =>
    rw [hcfg, hres.header]
    show np.float32 _ = np.float32 (UInt32.ofNat (f32 c.ropeTheta).toNat)
    rw [UInt32.ofNat_toNat]
  case normEps =>
    rw [hcfg, hres.header]
    show np.float32 _ = np.float32 (UInt32.ofNat (f32 c.normEps).toNat)
    rw [UInt32.ofNat_toNat]
  case even => exact hheadSize ▸ heven
  case tokEmb => exact htokEmb
  case rmsFinal => exact hstored.vector hres.rmsFinal rfl (hw.rmsFinal.trans (by rw [hdim]))
  case classifier =>
    rw [hcfg]
    show HasMatrix r file m (if c.sharedClassifier ≠ 0 then _ else _) _ _ _
    by_cases hown : c.sharedClassifier = 0
    · obtain ⟨cls, hcls, hplaced⟩ := hres.classifier hown
      rw [if_neg (not_not.mpr hown)]
      exact hstored.matrix hplaced hm hqtype.symm
        ((hw.cls cls hcls).trans (by rw [hvocab, hdim])) hcols
    · rw [if_pos hown, hres.shared hown]
      exact htokEmb
  case norms =>
    intro l hl s hs
    have hl : l < c.nLayers := hnLayers ▸ hl
    have hslot := layerTensor_slot hw hm hres hl s
    rw [if_pos hs] at hslot
    have hfound := hstored.vector (hres.layers l hl s) hslot.1 hslot.2
    rwa [layerTensor_name] at hfound
  case matrices =>
    intro l hl s hs
    have hl : l < c.nLayers := hnLayers ▸ hl
    have hslot := layerTensor_slot hw hm hres hl s
    rw [if_neg hs] at hslot
    have hfound := hstored.matrix (hres.layers l hl s) hm hslot.1 hslot.2 (cols_blocks hm hs)
    rwa [layerTensor_name] at hfound

/-- What an exported file opens as, and what the reader makes of it. -/
theorem writeModel_same (hc : c.Valid) (hw : w.Shaped c)
    (htok : ∀ p, tok = some p → p.1.length = c.vocabSize) {file : List UInt8}
    (h : writeModel wnp f32 c w tok = .ok file) (heven : 2 ∣ c.headSize) (np : RefNumpy R)
    {arena : TqArena} {t u : TqTile} {m : TqModel}
    (hopen : (tqModelOpen (tqStoreInitMapped file (UInt64.ofNat file.length)) arena).exec t =
    (.ok m, u)) :
    m.vocabSize = c.vocabSize ∧ SlotsInBounds file file.length m ∧
      (UInt64.ofNat file.length).toNat = file.length ∧
      ∃ r, read np.float32 file = .ok r ∧ SameModel r file m np := by
  have hlayers := hc.layerNames
  have hmod : 16 ∣ 2 ^ 64 := by decide
  have hcap : c.nLayers * tqLayerOffsetsBytes + 16 < 2 ^ 64 := by
    unfold tqLayerOffsetsBytes
    omega
  have hmodel := (tqModelOpen_mapped.mp hopen).1.model
  -- the model does not depend on the arena: one that fits tells what it is
  obtain ⟨⟨m', hopen', hres⟩, hslices, r, hread, hcfg, htensors⟩ :=
    @writeModel_open F R wnp f32 c w tok hc hw htok
    file h ⟨0, c.nLayers * tqLayerOffsetsBytes + 16, 2 ^ 64⟩ hmod hcap rfl np.float32 t
  obtain rfl : m' = m := (tqModelOpen_mapped.mp hopen').1.model.trans hmodel.symm
  obtain ⟨m₂, hacc, hin, hbytes, -⟩ := @writeModel_inBounds F R wnp f32 c w tok hc hw htok file h
    ⟨0, c.nLayers * tqLayerOffsetsBytes + 16, 2 ^ 64⟩ hmod hcap (Nat.le_refl _)
  obtain rfl : m₂ = m' := hacc.model.trans hmodel.symm
  obtain ⟨ts, hts, -⟩ := bind_eq_ok.mp h
  obtain ⟨-, hvalid, hall⟩ := modelTensors_ok wnp c w tok hts
  obtain rfl : ts = allTensors wnp c w tok := hall
  have hstored : Stored (allTensors wnp c w tok) r file :=
    ⟨htensors, hvalid, fun v hv u hu => tensor_unique hc hw htok hu hv, hslices⟩
  exact ⟨hres.dims.2.2.2.2.2.1, hin, hbytes, r, hread,
    hres.same hw (tqModelOpen_sized hopen) heven hstored hcfg⟩

end Model

/-! ## Agreement -/

section Agreement
variable {R F : Type} [Field R] [LinearOrder R] [IsStrictOrderedRing R] {wnp : Numpy F}
    {f32 : R → UInt32}
variable {c : Config R} {w : Weights F} {tok : Option (List (List UInt8) × NdArray F)}

omit [Field R] [LinearOrder R] [IsStrictOrderedRing R] in
/-- All elements of a list, one after the other. -/
theorem map_getD {α : Type} (f : Nat → α) {xs : List Nat} :
    (List.range' 0 xs.length).map (fun i => f (xs.getD i 0)) = xs.map f := by
  refine List.ext_getElem (by simp) fun i hi hi' => ?_
  have hlt : i < xs.length := by simpa using hi'
  simp [hlt]

/-- **The oracle and the engine agree** on what the converter wrote, in exact
arithmetic.  The file opens in any arena that is large enough; with a cache of
floats and for any text that fits the context, `tq_forward` shows the logits
that `generate_logits` returns, whatever the buffers held before. -/
theorem generateLogits_tqForward (codec : TqCodec R) (hc : c.Valid) (hw : w.Shaped c)
    (htok : ∀ p, tok = some p → p.1.length = c.vocabSize) {file : List UInt8}
    (h : writeModel wnp f32 c w tok = .ok file) (heven : 2 ∣ c.headSize) {O : FloatOps R}
    {np : RefNumpy R} (hO : SameNumbers O np) {arena : TqArena} {t u : TqTile} {m : TqModel}
    (hopen : (tqModelOpen (tqStoreInitMapped file (UInt64.ofNat file.length)) arena).exec t =
      (.ok m, u))
    {maxSeq : Int} {fast cache : TqArena} {rt : TqRuntime} (hrt : SetUp m maxSeq 0 fast cache rt)
    {tokens : List Nat} (htokens : ∀ token ∈ tokens, token < c.vocabSize)
    (hlen : tokens.length ≤ maxSeq) (s : TqMachine (TqFlat codec (tqLayout fast cache rt))) :
    ∃ out, generateLogits np file tokens = some out ∧
      logitsSeen m.vocabSize (tqFeed O (tqStoreInitMapped file (UInt64.ofNat file.length)) m rt
        (callsFrom 0 (tokens.map (Nat.cast : Nat → Int))) s) = out.map .ok := by
  obtain ⟨hvocab, hin, hbytes, r, hread, hr⟩ := writeModel_same hc hw htok h heven np hopen
  have hm : m.Sized := tqModelOpen_sized hopen
  obtain ⟨hseq, hkv, -⟩ := tqRuntimeInit_ok hrt.init
  have hkv : rt.kvDtype = .f32 := hkv
  have hvalid : ∀ pos < tokens.length, 0 ≤ ((tokens.getD pos 0 : Nat) : Int) ∧
      ((tokens.getD pos 0 : Nat) : Int) < m.vocabSize := by
    intro pos hpos
    rw [List.getD_eq_getElem _ _ hpos]
    have hlt := htokens _ (List.getElem_mem hpos)
    omega
  -- the engine
  have hrun := @decode_run R O file (UInt64.ofNat file.length) m rt hbytes hm hin
    (fun pos => ((tokens.getD pos 0 : Nat) : Int)) tokens.length hvalid tokens.length 0
    s.named (by omega)
    (by omega) fun l _ t ht => absurd ht (Nat.not_lt_zero t)
  rw [map_getD (Nat.cast : Nat → Int), hkv] at hrun
  -- the oracle
  obtain ⟨out, hout, hlogits⟩ := @refTokens_spec R _ _ O np r file m _ hO hm hr
    (fun pos => ((tokens.getD pos 0 : Nat) : Int)) tokens.length hvalid tokens.length 0
    ⟨fun _ _ _ => 0, fun _ _ _ => 0, fun _ => 0⟩ (by omega)
    fun l _ t ht => absurd ht (Nat.not_lt_zero t)
  rw [map_getD fun token : Nat => (token : Int).toNat,
    List.map_congr_left fun token _ => Int.toNat_natCast token, List.map_id'] at hout
  refine ⟨out.map fun logits => (List.range m.vocabSize).map logits, ?_, ?_⟩
  · unfold generateLogits
    simp only [hread, Except.toOption, Option.bind_eq_bind, Option.bind_some, hout, hr.vocabSize]
  · rw [logitsSeen_shows O _ hm (hrt.lawful codec) _ (shows_named s), hrun, hlogits, List.map_map]
    rfl

end Agreement

/-- Exact arithmetic, with the functions as they are near zero; a square root is
that of the numerator and of the denominator, rounded down. -/
def originOps : FloatOps ℚ :=
  { halfOps with
    sqrt := fun x => Nat.sqrt x.num.natAbs / Nat.sqrt x.den
    tqExpf := fun x => 1 + x
    tqPowf := fun _ x => 1 + x
    tqCosf := fun _ => 1
    tqSinf := fun x => x }

def originNumpy : RefNumpy ℚ where
  float32 b := Ieee.single.value b.toNat
  float16 := halfOf
  ofFloat16 h := Ieee.single.value (halfToFloatBits h).toNat
  trunc q := if q < 0 then -⌊-q⌋ else ⌊q⌋
  sqrt x := Nat.sqrt x.num.natAbs / Nat.sqrt x.den
  exp x := 1 + x
  cos _ := 1
  sin x := x
  power _ x := 1 + x

theorem origin_sameNumbers : SameNumbers originOps originNumpy where
  ofInt _ := rfl
  half := rfl
  add _ _ := rfl
  sub _ _ := rfl
  mul _ _ := rfl
  div _ _ := rfl
  neg _ := rfl
  lt _ _ := rfl
  beq _ _ := rfl
  float32 _ := rfl
  float16 x := congrArg (tqHalfToFloat halfOps) (tqFloatToHalf_halfOps x)
  ofFloat16 _ := rfl
  trunc _ := rfl
  sqrt _ := rfl
  exp _ := rfl
  cos _ := rfl
  sin _ := rfl
  power _ _ := rfl

/-- The bits of the two floats of a small model. -/
def originBits (x : ℚ) : UInt32 := if x = 10000 then 0x461c4000 else 0x3727c5ac

/-- A small model, with floats that are rationals. -/
def originConfig : Config ℚ :=
  { smallConfig 32 32 1 1 4 with
    ropeTheta := 10000
    normEps := 1 / 100000 }

theorem originConfig_valid : originConfig.Valid := by
  constructor <;> decide

theorem originConfig_written : ∃ file, writeModel zeroNumpy originBits originConfig
    (zeroWeights (smallConfig 32 32 1 1 4)) smallTok = .ok file := by
  obtain ⟨file, hfile⟩ := smallModel_written smallConfig_valid smallConfig_fits (by decide)
  have htheta : originBits 10000 = 0x461c4000 := if_pos rfl
  have heps : originBits (1 / 100000) = 0x3727c5ac := if_neg (by norm_num)
  refine ⟨file, Eq.trans ?_ hfile⟩
  show (modelTensors zeroNumpy _ _ _ >>= fun ts => write originBits originConfig ts) =
    (modelTensors zeroNumpy _ _ _ >>= fun ts => write id (smallConfig 32 32 1 1 4) ts)
  have hwrite : ∀ ts, write originBits originConfig ts = write id (smallConfig 32 32 1 1 4) ts := by
    intro ts
    have hfields : ∀ n a b k, originConfig.fields originBits n a b k =
        (smallConfig 32 32 1 1 4).fields id n a b k := by
      intro n a b k
      unfold Config.fields originConfig
      dsimp only
      rw [htheta, heps]
      rfl
    unfold write
    simp only [hfields]
  exact congrArg (fun f => modelTensors zeroNumpy _ _ _ >>= f) (funext hwrite)

/-- Two tokens, and a single layer of width 32. -/
theorem generateLogits_tqForward_small : ∃ file m rt out,
    writeModel zeroNumpy originBits originConfig (zeroWeights (smallConfig 32 32 1 1 4)) smallTok =
      .ok file ∧
    (tqModelOpen (tqStoreInitMapped file (UInt64.ofNat file.length)) ⟨0x20000000, 88, 2 ^ 32⟩).exec
      ⟨0, []⟩ =
      (.ok m, ⟨0, []⟩) ∧
    generateLogits originNumpy file [0, 0] = some out ∧
    logitsSeen m.vocabSize
      (tqFeed originOps (tqStoreInitMapped file (UInt64.ofNat file.length)) m rt
      [(0, 0), (0, 1)] (TqMachine.flat originOps (tqLayout sampleFast sampleCache rt))) =
        out.map .ok := by
  obtain ⟨file, hfile⟩ := originConfig_written
  have hw : (zeroWeights (smallConfig 32 32 1 1 4)).Shaped originConfig :=
    ⟨rfl, rfl, fun a ha => absurd ha (by simp [zeroWeights]), fun _ _ s => by cases s <;> rfl⟩
  have htok : ∀ p, smallTok = some p → p.1.length = originConfig.vocabSize :=
    fun p hp => by cases hp; rfl
  obtain ⟨-, hacc⟩ := @writeModel_accepted _ _ _ _ _ _ _ originConfig_valid hw htok file hfile
    ⟨0x20000000, 88, 2 ^ 32⟩ (by decide) (by decide) (Nat.le_refl 88)
  have hopen := tqModelOpen_mapped.mpr ⟨hacc, @rfl _ (TqTile.mk 0 [])⟩
  -- the dimensions are those of the configuration
  obtain ⟨m, hm, hopen⟩ : ∃ m, SmallDims 32 32 1 1 4 m ∧
      (tqModelOpen (tqStoreInitMapped file (UInt64.ofNat file.length)) ⟨0x20000000, 88,
        2 ^ 32⟩).exec ⟨0, []⟩ =
        (.ok m, ⟨0, []⟩) := ⟨_, ⟨rfl, rfl, rfl, rfl, rfl, rfl, rfl, rfl, rfl⟩, hopen⟩
  have hfast : tqFastSizes m 4 = [128, 128, 128, 128, 128, 128, 16, 4, 34, 34, 128, 128, 64, 64] :=
    small_fastSizes hm 4
  have hcache : tqCacheSizes m 4 .f32 = [512, 512] := small_cacheSizes hm 4
  obtain ⟨rt, hinit⟩ :=
    (@tqRuntimeInit_isOk m 4 (by decide) hm.seqLen.ge .f32 sampleFast sampleCache).mpr
    ⟨by rw [hfast]; decide, by rw [hcache]; decide⟩
  obtain ⟨rt, hrt, -⟩ := @sampleArenas_setUp m 4 false (congrArg Except.isOk hinit)
    (by rw [hfast]; unfold NoWrap; decide)
    (by rw [if_neg Bool.false_ne_true, hcache]; unfold NoWrap; decide)
  obtain ⟨out, hout, hlogits⟩ := generateLogits_tqForward (TqCodec.tags originOps)
    originConfig_valid hw htok hfile
    ⟨16, rfl⟩ origin_sameNumbers hopen hrt (by decide : ∀ token ∈ [0, 0], token <
      originConfig.vocabSize) (by decide)
    (TqMachine.flat originOps (tqLayout sampleFast sampleCache rt))
  exact ⟨file, m, rt, out, hfile, hopen, hout, hlogits⟩

end TinyLlm.Etq
