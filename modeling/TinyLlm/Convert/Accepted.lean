/-
# `TinyLlm.Convert.Accepted` — the engine accepts what was exported

Every entry of an exported directory is one that `tq_model_open` admits, and
every tensor it asks for is there; so an exported file is accepted
(`writeModel_accepted`).
-/
import TinyLlm.Convert.Tensors
import TinyLlm.Model.Arena

namespace TinyLlm.Etq

open Bytes Bump

/-! ## Names -/

/-- A name without a zero that is not too long is read back as a C string. -/
theorem cstr_packName {name : List UInt8} (hzero : ∀ c ∈ name, c ≠ 0)
    (hlen : name.length < tqNameBytes) :
    cstr (packName name) = name := by
  have hpad : List.replicate (tqNameBytes - name.length) (0 : UInt8) =
      0 :: List.replicate (tqNameBytes - name.length - 1) 0 := by
    rw [← List.replicate_succ]
    congr 1
    omega
  rw [cstr, packName, List.take_of_length_le hlen.le, hpad, List.takeWhile_append_of_pos,
    List.takeWhile_cons_of_neg (by simp), List.append_nil]
  intro c hc
  exact decide_eq_true (hzero c hc)

theorem tqNameEq_packName {name want : List UInt8} (hzero : ∀ c ∈ name, c ≠ 0)
    (hlen : name.length < tqNameBytes) (hwant : ∀ c ∈ want, c ≠ 0)
    (hwlen : want.length < tqNameBytes) :
    tqNameEq (packName name) want = true ↔ name = want := by
  rw [tqNameEq_iff hwant (by rw [length_packName]; exact hwlen), cstr_packName hzero hlen]

theorem suffix_nonzero (s : TqLayerSlot) : ∀ c ∈ s.suffix, c ≠ 0 := by
  have h : s.suffix.all (· != 0) = true := by cases s <;> decide
  simpa using h

theorem find_suffix (s : TqLayerSlot) :
    TqLayerSlot.all.find? (fun s' => decide (s.suffix = s'.suffix)) = some s := by
  cases s <;> decide

theorem length_suffix (s : TqLayerSlot) : s.suffix.length ≤ 7 := by
  cases s <;> decide

/-- The name of a layer tensor, byte by byte. -/
theorem layerName_eq {l : Nat} (hl : l < 1000) (s : TqLayerSlot) : layerName l s =
    [108, UInt8.ofNat (48 + l / 100), UInt8.ofNat (48 + l / 10 % 10),
      UInt8.ofNat (48 + l % 10), 46] ++
      s.suffix := by
  rw [layerName, decimal03, if_pos hl]
  rfl

theorem layerName_nonzero {l : Nat} (hl : l < 1000) (s : TqLayerSlot) :
    ∀ c ∈ layerName l s, c ≠ 0 := by
  have hdigit : ∀ d < 10, UInt8.ofNat (48 + d) ≠ 0 := by
    intro d hd h
    have := congrArg UInt8.toNat h
    rw [UInt8.toNat_ofNat_of_lt' (by show _ < 256; omega), UInt8.toNat_zero] at this
    omega
  intro c hc
  rw [layerName_eq hl] at hc
  rcases List.mem_append.mp hc with hc | hc
  · simp only [List.mem_cons, List.not_mem_nil, or_false] at hc
    rcases hc with rfl | rfl | rfl | rfl | rfl
    · decide
    · exact hdigit _ (by omega)
    · exact hdigit _ (by omega)
    · exact hdigit _ (by omega)
    · decide
  · exact suffix_nonzero s c hc

/-- **The name of a layer tensor** spells that tensor. -/
theorem spells_layerName {e : TqTensorEntry} {l : Nat} {s : TqLayerSlot} (hl : l < 1000)
    (he : e.name = packName (layerName l s)) : e.spells = some (l, s) := by
  have hsuffix := length_suffix s
  have hname : e.name = [108, UInt8.ofNat (48 + l / 100), UInt8.ofNat (48 + l / 10 % 10),
      UInt8.ofNat (48 + l % 10), 46] ++
        (s.suffix ++ List.replicate (tqNameBytes - (layerName l s).length) 0) := by
    rw [he, packName, List.take_of_length_le, layerName_eq hl, List.append_assoc]
    rw [layerName_eq hl, List.length_append]
    simp only [List.length_cons, List.length_nil, tqNameBytes]
    omega
  have hdigit : ∀ d < 10, ((UInt8.ofNat (48 + d)).toNat + (2 ^ 32 - 48)) % 2 ^ 32 = d := by
    intro d hd
    rw [UInt8.toNat_ofNat_of_lt' (by show _ < 256; omega)]
    omega
  have hnumber : tqLayerNumber e.name = l := by
    rw [hname]
    unfold tqLayerNumber
    simp only [List.cons_append, List.getD_cons_succ, List.getD_cons_zero]
    rw [hdigit _ (by omega), hdigit _ (by omega), hdigit _ (by omega)]
    have htens : l / 100 = l / 10 / 10 := (Nat.div_div_eq_div_mul l 10 10).symm
    omega
  have hslot : tqLayerSlot e.name = some s := by
    have hcstr : cstr (e.name.drop 5) = s.suffix := by
      rw [hname]
      show cstr (s.suffix ++ _) = _
      have hpad : tqNameBytes - (layerName l s).length =
          tqNameBytes - (layerName l s).length - 1 + 1 := by
        rw [layerName_eq hl, List.length_append]
        simp only [List.length_cons, List.length_nil, tqNameBytes]
        omega
      rw [cstr, hpad, List.replicate_succ, List.takeWhile_append_of_pos,
        List.takeWhile_cons_of_neg (by simp), List.append_nil]
      exact fun c hc => decide_eq_true (suffix_nonzero s c hc)
    unfold tqLayerSlot
    rw [hcstr]
    exact find_suffix s
  unfold TqTensorEntry.spells
  rw [hslot, hnumber, if_neg]
  · rfl
  · rw [hname]
    rintro (h | h)
    · exact h rfl
    · exact h rfl

/-! ## The directory -/

theorem mem_entriesFrom {s : Nat} {ts : List Tensor} {e : TqTensorEntry} : e ∈ entriesFrom s ts ↔
    ∃ p ∈ ts.zip (place s (ts.map Tensor.item)), e = p.1.entry p.2.start := by
  unfold entriesFrom
  rw [← List.map_uncurry_zip_eq_zipWith, List.mem_map]
  exact ⟨fun ⟨p, hp, h⟩ => ⟨p, hp, h.symm⟩, fun ⟨p, hp, h⟩ => ⟨p, hp, h.symm⟩⟩

/-- Each tensor has a place. -/
theorem exists_region {s : Nat} : ∀ {ts : List Tensor} {t : Tensor}, t ∈ ts →
    ∃ r, (t, r) ∈ ts.zip (place s (ts.map Tensor.item)) := by
  intro ts
  induction ts generalizing s with
  | nil => exact nofun
  | cons t' ts ih =>
      intro t ht
      rcases List.mem_cons.mp ht with rfl | ht
      · exact ⟨_, List.mem_cons_self⟩
      · obtain ⟨r, hr⟩ := ih ht
        exact ⟨r, List.mem_cons_of_mem _ hr⟩

/-- A place is as long as its payload. -/
theorem region_size {s : Nat} : ∀ {ts : List Tensor} {p : Tensor × Region},
    p ∈ ts.zip (place s (ts.map Tensor.item)) → p.2.size = p.1.payload.length := by
  intro ts
  induction ts generalizing s with
  | nil => exact nofun
  | cons t ts ih =>
      intro p hp
      rcases List.mem_cons.mp hp with rfl | hp
      · rfl
      · exact ih hp

/-- What was placed ends in the file. -/
theorem region_le_total {ts : List Tensor} {p : Tensor × Region} (hp : p ∈ ts.zip (regions ts)) :
    p.2.start + p.1.payload.length ≤ total ts := by
  have hstop := stop_le_top (List.of_mem_zip hp).2
  have htop : top (tableEnd ts) (ts.map Tensor.item) ≤ total ts := by
    rw [total, align_eq]
    exact le_roundUp _ _
  rw [← region_size hp]
  exact hstop.trans htop

/-- What the writer placed passes the checks of every entry. -/
theorem region_inFile {ts : List Tensor} (htotal : total ts < 2 ^ 64) {p : Tensor × Region}
    (hp : p ∈ ts.zip (regions ts)) : (p.1.entry p.2.start).InFile (total ts) := by
  have hle := region_le_total hp
  refine ⟨?_, ?_⟩
  · show (p.2.start + p.1.payload.length) % 2 ^ 64 ≤ total ts
    rw [Nat.mod_eq_of_lt (by omega)]
    exact hle
  · refine start_mod (a := tqAlign) (by decide) (fun i hi => ?_) (List.of_mem_zip hp).2
    obtain ⟨t, -, rfl⟩ := List.mem_map.mp hi
    rfl

/-! ## What is asked for -/

/-- A configuration that the engine supports. -/
structure Config.Valid {R : Type} (c : Config R) : Prop where
  dim : 0 < c.dim
  hiddenDim : 0 < c.hiddenDim
  nLayers : 0 < c.nLayers
  nHeads : 0 < c.nHeads
  nKvHeads : 0 < c.nKvHeads
  vocabSize : 0 < c.vocabSize
  seqLen : 0 < c.seqLen
  heads : c.dim % c.nHeads = 0
  groups : c.nHeads % c.nKvHeads = 0
  dimBlocks : c.dim % tqGroupSize = 0
  hiddenDimBlocks : c.hiddenDim % tqGroupSize = 0
  layerNames : c.nLayers ≤ 1000
  qtype : c.qtype = tqDtQ40 ∨ c.qtype = tqDtQ80

/-- The shapes of the tensors of a layer. -/
def Config.shape {R : Type} (c : Config R) : TqLayerSlot → List Nat
  | .rmsAtt | .rmsFfn => [c.dim]
  | .wq | .wo => [c.dim, c.dim]
  | .wk | .wv => [c.kvDim, c.dim]
  | .w1 | .w3 => [c.hiddenDim, c.dim]
  | .w2 => [c.dim, c.hiddenDim]

/-- Weights of the documented shapes. -/
structure Weights.Shaped {F R : Type} (w : Weights F) (c : Config R) : Prop where
  tokEmb : w.tokEmb.shape = [c.vocabSize, c.dim]
  rmsFinal : w.rmsFinal.shape = [c.dim]
  cls : ∀ a, w.cls = some a → a.shape = [c.vocabSize, c.dim]
  layers : ∀ l < c.nLayers, ∀ s, (w.layers l s).shape = c.shape s

theorem want_name {m : TqModel} {w : TqWant} (hw : w ∈ tqWants m) :
    (∀ c ∈ w.name, c ≠ 0) ∧ w.name.length < tqNameBytes ∧ (packName w.name).getD 0 0 ≠ 108 := by
  have h : ((tqWants m).map TqWant.name).all (fun name => name.all (· != 0) &&
      decide (name.length < tqNameBytes) && decide ((packName name).getD 0 0 ≠ 108)) = true := by
    rw [tqWants_names]
    decide
  have hname := List.all_eq_true.mp h _ (List.mem_map_of_mem hw)
  simp only [Bool.and_eq_true, decide_eq_true_eq, List.all_eq_true, bne_iff_ne] at hname
  exact ⟨hname.1.1, hname.1.2, hname.2⟩

/-- The wants have different names. -/
theorem want_unique {m : TqModel} {w w' : TqWant} (hw : w ∈ tqWants m) (hw' : w' ∈ tqWants m)
    (h : w.name = w'.name) : w = w' := by
  have hnodup : ((tqWants m).map TqWant.name).Nodup := by
    rw [tqWants_names]
    decide
  exact List.inj_on_of_nodup_map hnodup hw hw' h

theorem fits_matrix {t : Tensor} {w : TqWant} (hdtype : t.dtype = w.dtype)
    (hshape : t.shape = [w.rows, w.cols]) (hcols : w.cols ≠ 0) (off : Nat) :
    (t.entry off).Fits w := by
  refine ⟨hdtype, ?_⟩
  unfold TqWant.shapeOk Tensor.entry
  rw [if_pos hcols, hshape]
  exact decide_eq_true ⟨rfl, rfl, rfl⟩

theorem fits_vector {t : Tensor} {w : TqWant} (hdtype : t.dtype = w.dtype)
    (hshape : t.shape = [w.rows]) (hcols : w.cols = 0) (hrows : w.rows ≠ 0) (off : Nat) :
    (t.entry off).Fits w := by
  refine ⟨hdtype, ?_⟩
  unfold TqWant.shapeOk Tensor.entry
  rw [if_neg (not_not.mpr hcols), if_pos hrows, hshape]
  exact decide_eq_true ⟨rfl, rfl⟩

/-! ## What is there -/

section Model
variable {F R : Type} {np : Numpy F} {f32 : R → UInt32} {c : Config R} {w : Weights F}
variable {tok : Option (List (List UInt8) × NdArray F)}

/-- The dimensions that the engine reads from the header. -/
def Config.dims (f32 : R → UInt32) (c : Config R) (ts : List Tensor) : TqModel :=
  tqModelDims (c.header f32 ts)

/-- A tensor that is not one of a layer fits the want of its name. -/
theorem global_fits (hc : c.Valid) (hw : w.Shaped c)
    (htok : ∀ p, tok = some p → p.1.length = c.vocabSize) {ts : List Tensor} {t : Tensor}
    (ht : t ∈ globalTensors np c w ++ tokTensors np tok) :
    ∃ want ∈ tqWants (c.dims f32 ts), t.name = want.name ∧ ∀ off, (t.entry off).Fits want := by
  have hdim : c.dim ≠ 0 := hc.dim.ne'
  have hvocab : c.vocabSize ≠ 0 := hc.vocabSize.ne'
  rcases List.mem_append.mp ht with ht | ht
  · rcases List.mem_append.mp ht with ht | ht
    · simp only [List.mem_cons, List.not_mem_nil, or_false] at ht
      rcases ht with rfl | rfl
      · exact ⟨_, List.mem_of_getElem? (i := 0) rfl, rfl, fits_matrix rfl hw.tokEmb hdim⟩
      · exact ⟨_, List.mem_of_getElem? (i := 1) rfl, rfl, fits_vector rfl hw.rmsFinal rfl hdim⟩
    · unfold clsTensors at ht
      split at ht
      · rw [Option.mem_toList, Option.map_eq_some_iff] at ht
        obtain ⟨cls, hcls, rfl⟩ := ht
        exact ⟨_, List.mem_of_getElem? (i := 2) rfl, rfl, fits_matrix rfl (hw.cls cls hcls) hdim⟩
      · cases ht
  · cases tok with
    | none => cases ht
    | some p =>
        obtain ⟨pieces, scores⟩ := p
        have hlen : pieces.length = c.vocabSize := htok _ rfl
        simp only [tokTensors, List.mem_cons, List.not_mem_nil, or_false] at ht
        rcases ht with rfl | rfl | rfl | rfl
        · exact ⟨_, List.mem_of_getElem? (i := 3) rfl, rfl,
            fits_vector rfl (congrArg (fun n => [n]) hlen) rfl hvocab⟩
        · exact ⟨_, List.mem_of_getElem? (i := 4) rfl, rfl,
            fits_vector rfl (congrArg (fun n => [n + 1]) hlen) rfl (Nat.succ_ne_zero _)⟩
        · exact ⟨_, List.mem_of_getElem? (i := 5) rfl, rfl, fun off => ⟨rfl, rfl⟩⟩
        · exact ⟨_, List.mem_of_getElem? (i := 6) rfl, rfl,
            fits_vector rfl (congrArg (fun n => [n]) hlen) rfl hvocab⟩

/-- A tensor of a layer fits its slot. -/
theorem layer_fits (hc : c.Valid) (hw : w.Shaped c) {ts : List Tensor} {l : Nat}
    (hl : l < c.nLayers) (s : TqLayerSlot) (off : Nat) :
    ((layerTensor np c.qtype w l s).entry off).FitsSlot (c.dims f32 ts) s := by
  have hdim : c.dim ≠ 0 := hc.dim.ne'
  have hhidden : c.hiddenDim ≠ 0 := hc.hiddenDim.ne'
  have hshape : (layerTensor np c.qtype w l s).shape = c.shape s := by
    have := hw.layers l hl s
    cases s <;> exact this
  unfold TqTensorEntry.FitsSlot Tensor.entry
  rw [hshape]
  cases s
  case rmsAtt => exact ⟨rfl, rfl, rfl⟩
  case rmsFfn => exact ⟨rfl, rfl, rfl⟩
  case w2 => exact ⟨rfl, rfl, (if_pos hhidden).mpr ⟨rfl, rfl⟩⟩
  all_goals exact ⟨rfl, rfl, (if_pos hdim).mpr ⟨rfl, rfl⟩⟩

theorem layerTensor_name (l : Nat) (s : TqLayerSlot) :
    (layerTensor np c.qtype w l s).name = layerName l s := by
  cases s <;> rfl

theorem mem_layerTensors {t : Tensor} : t ∈ layerTensors np c w ↔
    ∃ l < c.nLayers, ∃ s, t = layerTensor np c.qtype w l s := by
  unfold layerTensors
  rw [List.mem_flatMap]
  constructor
  · rintro ⟨l, hl, ht⟩
    obtain ⟨s, -, rfl⟩ := List.mem_map.mp ht
    exact ⟨l, List.mem_range.mp hl, s, rfl⟩
  · rintro ⟨l, hl, s, rfl⟩
    exact ⟨l, List.mem_range.mpr hl, List.mem_map_of_mem s.mem_all⟩

/-- All tensors of a model. -/
def allTensors (np : Numpy F) (c : Config R) (w : Weights F)
    (tok : Option (List (List UInt8) × NdArray F)) : List Tensor :=
  globalTensors np c w ++ layerTensors np c w ++ tokTensors np tok

theorem mem_allTensors {t : Tensor} : t ∈ allTensors np c w tok ↔
    t ∈ globalTensors np c w ++ tokTensors np tok ∨
      ∃ l < c.nLayers, ∃ s, t = layerTensor np c.qtype w l s := by
  unfold allTensors
  rw [List.mem_append, List.mem_append, List.mem_append, mem_layerTensors]
  exact ⟨fun h => h.elim (fun h => h.imp_left .inl) fun h => .inl (.inr h),
    fun h => h.elim (fun h => h.imp_left .inl) fun h => .inl (.inr h)⟩

theorem spells_global {t : Tensor} {want : TqWant} {m : TqModel} (hwant : want ∈ tqWants m)
    (hname : t.name = want.name) (off : Nat) : (t.entry off).spells = none := by
  unfold TqTensorEntry.spells
  refine if_pos (.inl ?_)
  show (packName t.name).getD 0 0 ≠ 108
  rw [hname]
  exact (want_name hwant).2.2

theorem spells_layer {l : Nat} (hl : l < 1000) (s : TqLayerSlot) (off : Nat) :
    ((layerTensor np c.qtype w l s).entry off).spells = some (l, s) :=
  spells_layerName hl (congrArg packName (layerTensor_name l s))

theorem nameEq_layer {l : Nat} (hl : l < 1000) (s : TqLayerSlot) {m : TqModel} {want : TqWant}
    (hwant : want ∈ tqWants m) : tqNameEq (packName (layerName l s)) want.name = false := by
  obtain ⟨hzero, hlen, hfirst⟩ := want_name hwant
  have hsuffix := length_suffix s
  refine Bool.eq_false_iff.mpr fun h => hfirst ?_
  rw [tqNameEq_packName (layerName_nonzero hl s) _ hzero hlen] at h
  · rw [← h, layerName_eq hl]
    rfl
  · rw [layerName_eq hl, List.length_append]
    simp only [List.length_cons, List.length_nil, tqNameBytes]
    omega

/-- **Every entry is admissible**, whatever came before it. -/
theorem admissible (hc : c.Valid) (hw : w.Shaped c)
    (htok : ∀ p, tok = some p → p.1.length = c.vocabSize) {ts : List Tensor}
    (hts : ts = allTensors np c w tok) (htotal : total ts < 2 ^ 64) {pre : List TqTensorEntry}
    {e : TqTensorEntry} (he : e ∈ entries ts) :
    Admissible (c.dims f32 ts) (tqWants (c.dims f32 ts)) pre e := by
  obtain ⟨p, hp, rfl⟩ := mem_entriesFrom.mp he
  have hmem : p.1 ∈ allTensors np c w tok := hts ▸ (List.of_mem_zip hp).1
  have hlayers := hc.layerNames
  refine ⟨region_inFile htotal hp, fun want hwant hname _ => ?_, fun l s hspells hl => ?_⟩
  · rcases mem_allTensors.mp hmem with hglobal | ⟨l, hl, s, heq⟩
    · obtain ⟨want', hwant', hname', hfits⟩ :=
        @global_fits F R np f32 c w tok hc hw htok ts _ hglobal
      obtain ⟨hzero, hlen, -⟩ := want_name hwant
      obtain ⟨hzero', hlen', -⟩ := want_name hwant'
      have hn : tqNameEq (packName p.1.name) want.name = true := hname
      rw [hname', tqNameEq_packName hzero' hlen' hzero hlen] at hn
      rw [← want_unique hwant' hwant hn]
      exact hfits _
    · have hn : tqNameEq (packName p.1.name) want.name = true := hname
      rw [heq, layerTensor_name, nameEq_layer (by omega) s hwant] at hn
      cases hn
  · rcases mem_allTensors.mp hmem with hglobal | ⟨l', hl', s', heq⟩
    · obtain ⟨want, hwant, hname, -⟩ := @global_fits F R np f32 c w tok hc hw htok ts _ hglobal
      rw [spells_global hwant hname] at hspells
      cases hspells
    · rw [heq, spells_layer (by omega)] at hspells
      cases hspells
      rw [heq]
      exact layer_fits hc hw hl s _

/-! ## The slots -/

/-- The writer placed `t` at `off`. -/
def Placed (ts : List Tensor) (t : Tensor) (off : Nat) : Prop :=
  ∃ r, (t, r) ∈ ts.zip (regions ts) ∧ r.start = off

/-- The slot of a layer tensor. -/
theorem layersAfter_placed (hc : c.Valid) {ts : List Tensor} (hts : ts = allTensors np c w tok)
    {m : TqModel}
    (hnames : ∀ t ∈ globalTensors np c w ++ tokTensors np tok, ∃ v ∈ tqWants m, t.name = v.name)
    {l : Nat} (hl : l < c.nLayers) (s : TqLayerSlot) :
    Placed ts (layerTensor np c.qtype w l s) (layersAfter (entries ts) c.nLayers l s) := by
  have hlayers := hc.layerNames
  obtain ⟨r, hr⟩ := @exists_region (tableEnd ts) ts (layerTensor np c.qtype w l s)
    (hts ▸ mem_allTensors.mpr (.inr ⟨l, hl, s, rfl⟩))
  have hsome : ((entries ts).reverse.find? fun e => e.spells = some (l, s)).isSome := by
    refine List.find?_isSome.mpr ⟨_, List.mem_reverse.mpr (mem_entriesFrom.mpr ⟨_, hr, rfl⟩), ?_⟩
    exact decide_eq_true (spells_layer (by omega) s _)
  obtain ⟨e, he⟩ := Option.isSome_iff_exists.mp hsome
  have hoff : layersAfter (entries ts) c.nLayers l s = e.offset := by
    unfold layersAfter
    rw [if_pos hl, he]
    rfl
  obtain ⟨p, hp, rfl⟩ := mem_entriesFrom.mp (List.mem_reverse.mp (List.mem_of_find?_eq_some he))
  have hspells : (p.1.entry p.2.start).spells = some (l, s) := by simpa using List.find?_some he
  have hmem : p.1 ∈ allTensors np c w tok := hts ▸ (List.of_mem_zip hp).1
  rcases mem_allTensors.mp hmem with hglobal | ⟨l', hl', s', heq⟩
  · obtain ⟨want, hwant, hname⟩ := hnames _ hglobal
    rw [spells_global hwant hname] at hspells
    cases hspells
  · rw [heq, spells_layer (by omega)] at hspells
    cases hspells
    exact ⟨p.2, heq ▸ hp, hoff.symm⟩

/-- The global tensors and those of the tokenizer have different names. -/
theorem global_unique {t t' : Tensor} (ht : t ∈ globalTensors np c w ++ tokTensors np tok)
    (ht' : t' ∈ globalTensors np c w ++ tokTensors np tok) (h : t.name = t'.name) : t = t' := by
  have hnodup : ((globalTensors np c w ++ tokTensors np tok).map Tensor.name).Nodup := by
    unfold globalTensors clsTensors
    cases w.cls with
    | none =>
        cases tok with
        | none => split <;> exact (by decide : [ascii "tok_emb", ascii "rms_final"].Nodup)
        | some p =>
          split <;> exact (by decide : [ascii "tok_emb", ascii "rms_final", ascii "tok.scores",
            ascii "tok.offs", ascii "tok.blob", ascii "tok.sorted"].Nodup)
    | some cls =>
        cases tok with
        | none =>
            split
            · exact (by decide : [ascii "tok_emb", ascii "rms_final", ascii "cls"].Nodup)
            · exact (by decide : [ascii "tok_emb", ascii "rms_final"].Nodup)
        | some p =>
            split
            · exact (by decide : [ascii "tok_emb", ascii "rms_final", ascii "cls",
                ascii "tok.scores", ascii "tok.offs", ascii "tok.blob", ascii "tok.sorted"].Nodup)
            · exact (by decide : [ascii "tok_emb", ascii "rms_final", ascii "tok.scores",
                ascii "tok.offs", ascii "tok.blob", ascii "tok.sorted"].Nodup)
  exact List.inj_on_of_nodup_map hnodup ht ht' h

/-- The entry that a want finds is that of the tensor of its name. -/
theorem settle_placed (hc : c.Valid) {ts : List Tensor} (hts : ts = allTensors np c w tok)
    {t : Tensor} (ht : t ∈ globalTensors np c w ++ tokTensors np tok) {want : TqWant} {m : TqModel}
    (hwant : want ∈ tqWants m) (hname : t.name = want.name)
    (hnames : ∀ t ∈ globalTensors np c w ++ tokTensors np tok, ∃ v ∈ tqWants m, t.name = v.name) :
    ∃ r, (t, r) ∈ ts.zip (regions ts) ∧ want.settle (entries ts) = want.take (t.entry r.start) := by
  obtain ⟨hzero, hlen, -⟩ := want_name hwant
  have hlayers := hc.layerNames
  obtain ⟨r, hr⟩ := @exists_region (tableEnd ts) ts t (hts ▸ mem_allTensors.mpr (.inl ht))
  have hsome : ((entries ts).find? fun e => tqNameEq e.name want.name).isSome := by
    refine List.find?_isSome.mpr ⟨_, mem_entriesFrom.mpr ⟨_, hr, rfl⟩, ?_⟩
    show tqNameEq (packName t.name) want.name = true
    rw [hname, tqNameEq_packName hzero hlen hzero hlen]
  obtain ⟨e, he⟩ := Option.isSome_iff_exists.mp hsome
  have hsettle : want.settle (entries ts) = want.take e := by
    unfold TqWant.settle
    rw [he]
    rfl
  obtain ⟨p, hp, rfl⟩ := mem_entriesFrom.mp (List.mem_of_find?_eq_some he)
  have hfound := List.find?_some he
  have hn : tqNameEq (packName p.1.name) want.name = true := hfound
  have hmem : p.1 ∈ allTensors np c w tok := hts ▸ (List.of_mem_zip hp).1
  rcases mem_allTensors.mp hmem with hglobal | ⟨l, hl, s, heq⟩
  · obtain ⟨v, hv, hvname⟩ := hnames _ hglobal
    obtain ⟨hzero', hlen', -⟩ := want_name hv
    rw [hvname, tqNameEq_packName hzero' hlen' hzero hlen, ← hvname, ← hname] at hn
    have htt : p.1 = t := global_unique hglobal ht hn
    exact ⟨p.2, htt ▸ hp, htt ▸ hsettle⟩
  · rw [heq, layerTensor_name, nameEq_layer (by omega) s hwant] at hn
    cases hn

theorem header_checked (hc : c.Valid) {ts : List Tensor} {n : Nat} (htotal : total ts ≤ n) :
    (c.header f32 ts).Checked n := by
  have hmod : ∀ {a b : Nat}, a % b = 0 → (a : Int) % (b : Int) = 0 := by
    intro a b h
    rw [← Int.natCast_mod, h]
    rfl
  exact ⟨rfl, rfl, rfl, rfl, hc.qtype, rfl, htotal, Int.natCast_pos.mpr hc.dim,
    Int.natCast_pos.mpr hc.nLayers, Int.natCast_pos.mpr hc.nHeads, Int.natCast_pos.mpr hc.nKvHeads,
    Int.natCast_pos.mpr hc.vocabSize, Int.natCast_pos.mpr hc.seqLen,
    Int.natCast_pos.mpr hc.hiddenDim, hmod hc.heads, hmod hc.groups, hmod hc.dimBlocks,
    hmod hc.hiddenDimBlocks⟩

/-- Every global tensor that is required was written. -/
theorem required_written (hcls : c.sharedClassifier = 0 → w.cls.isSome) {ts : List Tensor}
    {want : TqWant} (hwant : want ∈ tqWants (c.dims f32 ts)) (hreq : want.required = true) :
    ∃ t ∈ globalTensors np c w ++ tokTensors np tok, t.name = want.name := by
  simp only [tqWants, List.mem_cons, List.not_mem_nil, or_false] at hwant
  rcases hwant with rfl | rfl | rfl | rfl | rfl | rfl | rfl
  · exact ⟨_, List.mem_cons_self, rfl⟩
  · exact ⟨_, List.mem_cons_of_mem _ List.mem_cons_self, rfl⟩
  · have hown : c.sharedClassifier = 0 := of_decide_eq_true hreq
    obtain ⟨cls, hsome⟩ := Option.isSome_iff_exists.mp (hcls hown)
    refine ⟨quantized np c.qtype (ascii "cls") cls, ?_, rfl⟩
    refine List.mem_append_left _ (List.mem_append_right _ ?_)
    unfold clsTensors
    rw [if_pos hown, hsome]
    exact List.mem_singleton.mpr rfl
  all_goals cases hreq

/-- What the walk over the directory finds. -/
def walked (f32 : R → UInt32) (c : Config R) (ts : List Tensor) : TqWalk where
  wants := (tqWants (c.dims f32 ts)).map (TqWant.settle (entries ts))
  layers := layersAfter (entries ts) c.nLayers

/-- Nothing is missing. -/
theorem walked_found (hc : c.Valid) (hcls : c.sharedClassifier = 0 → w.cls.isSome)
    {ts : List Tensor} (hts : ts = allTensors np c w tok)
    (hnames : ∀ t ∈ globalTensors np c w ++ tokTensors np tok,
      ∃ v ∈ tqWants (c.dims f32 ts), t.name = v.name) :
    tqCheckFound (c.dims f32 ts) (walked f32 c ts) = .ok () := by
  have hglobals : ¬ (walked f32 c ts).wants.any (fun w => w.required && !w.found) = true := by
    intro hany
    obtain ⟨v, hv, hmiss⟩ := List.any_eq_true.mp hany
    obtain ⟨want, hwant, rfl⟩ := List.mem_map.mp hv
    rw [Bool.and_eq_true, Bool.not_eq_true'] at hmiss
    obtain ⟨hreq, hmiss⟩ := hmiss
    rw [settle_required] at hreq
    obtain ⟨t, ht, hname⟩ := @required_written F R np f32 c w tok hcls ts _ hwant hreq
    obtain ⟨r, -, hsettle⟩ := settle_placed hc hts ht hwant hname hnames
    rw [hsettle] at hmiss
    cases hmiss
  have hlayers : ¬ (List.range (c.dims f32 ts).nLayers).any (fun l => TqLayerSlot.all.any fun t =>
      (walked f32 c ts).layers l t = 0) = true := by
    intro hany
    obtain ⟨l, hl, hany⟩ := List.any_eq_true.mp hany
    obtain ⟨s, -, hzero⟩ := List.any_eq_true.mp hany
    obtain ⟨r, hr, hoff⟩ := layersAfter_placed hc hts hnames (List.mem_range.mp hl) s
    have hstart := start_le (List.of_mem_zip hr).2
    have hzero : layersAfter (entries ts) c.nLayers l s = 0 := of_decide_eq_true hzero
    unfold tableEnd tqHeaderBytes at hstart
    omega
  unfold tqCheckFound
  rw [if_neg hglobals, if_neg hlayers]

/-- **An exported file is accepted.** -/
theorem writeModel_accepted (hc : c.Valid) (hw : w.Shaped c)
    (htok : ∀ p, tok = some p → p.1.length = c.vocabSize) {file : List UInt8}
    (h : writeModel np f32 c w tok = .ok file) {arena : TqArena} (hmod : 16 ∣ arena.sizeMod)
    (hcap : arena.cap < arena.sizeMod) (hroom : c.nLayers * tqLayerOffsetsBytes + 16 ≤ arena.cap) :
    write f32 c (allTensors np c w tok) = .ok file ∧
      Accepted file (UInt64.ofNat file.length) arena
        (tqResolve (c.dims f32 (allTensors np c w tok))
        (walked f32 c (allTensors np c w tok))) := by
  obtain ⟨ts, hts, hwrite⟩ := bind_eq_ok.mp h
  obtain ⟨hcls, -, hall⟩ := modelTensors_ok np c w tok hts
  have hall : ts = allTensors np c w tok := hall
  subst hall
  set ts := allTensors np c w tok with hset
  obtain ⟨data, hfile, hdesc, hlen, -⟩ := write_image hwrite
  have htotal : total ts < 2 ^ 64 := by
    have := hdesc.header.fields (8, total ts) (by simp [TqHeader.fields, Config.header])
    exact this
  have hbytes : (UInt64.ofNat file.length).toNat = total ts := by
    rw [UInt64.toNat_ofNat_of_lt' (by rw [hlen]; exact htotal), hlen]
  have hnames : ∀ t ∈ globalTensors np c w ++ tokTensors np tok,
      ∃ v ∈ tqWants (c.dims f32 ts), t.name = v.name := by
    intro t ht
    obtain ⟨v, hv, hname, -⟩ := @global_fits F R np f32 c w tok hc hw htok ts t ht
    exact ⟨v, hv, hname⟩
  refine ⟨hwrite, ?_⟩
  have hsize := @length_image _ _ data hdesc
  rw [← hfile, hlen] at hsize
  rw [hfile]
  refine accepted_image hdesc (header_checked hc ?_) ?_ ?_ ?_ (walked_found hc hcls hset hnames)
  · rw [← hfile, hbytes]
  · rw [← hfile, hbytes, hsize]
    omega
  · have hbump := @roundUp_lt 16 (by decide) (arena.addr + 0)
    have hmul : tqLayerOffsetsBytes * (tqModelDims (c.header f32 ts)).nLayers =
        c.nLayers * tqLayerOffsetsBytes :=
      Nat.mul_comm _ _
    rw [hmul, Nat.mod_eq_of_lt (by omega), tqCarve_eq hmod (by omega), if_neg (by omega)]
    rfl
  · refine (tqWalk_ok (fun e he => (hdesc.entries e he).name) _).mpr
      ⟨fun pre e post hsplit => ?_, rfl⟩
    refine admissible hc hw htok hset htotal ?_
    rw [hsplit]
    exact List.mem_append_right pre List.mem_cons_self

end Model

end TinyLlm.Etq
