/-
# `TinyLlm.Convert.Total` — what can be exported

The exporter raises when a payload has the wrong size or a number does not fit
its field.  Weights of the documented shapes have payloads of the right size,
so with words that fit and a file below 2^64 bytes `write_model` writes one
(`writeModel_total`).
-/
import Mathlib.Algebra.Order.BigOperators.Group.List
import TinyLlm.Convert.Accepted
import TinyLlm.Model.Bounds

namespace TinyLlm.Etq

open Bytes Bump

/-! ## Payloads -/

theorem dtypeNbytes_total {dtype n : Nat} (hdtype : dtype ≤ tqDtU32)
    (hblocks : dtype = tqDtQ80 ∨ dtype = tqDtQ40 → n % tqGroupSize = 0) :
    dtypeNbytes dtype n = .ok (payloadBytes dtype n) := by
  unfold dtypeNbytes payloadBytes
  split_ifs with h₁ h₂ h₃ h₄ h₅ h₆
  · rfl
  · rfl
  · exact absurd (hblocks (.inl h₃)) h₄
  · rfl
  · exact absurd (hblocks (.inr h₅)) h₆
  · rfl
  · unfold tqDtF32 tqDtU32 tqDtU8 tqDtQ80 tqDtQ40 at *
    omega

theorem length_flatMap_const {α β : Type} {f : α → List β} {n : Nat} (h : ∀ a, (f a).length = n) :
    ∀ as : List α, (as.flatMap f).length = as.length * n
  | [] => by rw [List.flatMap_nil, List.length_nil, List.length_nil, Nat.zero_mul]
  | a :: as => by
      rw [List.flatMap_cons, List.length_append, h, length_flatMap_const h as,
        List.length_cons, Nat.succ_mul, Nat.add_comm]

section Emit
variable {F : Type} (np : Numpy F)

theorem length_tobytes (arr : NdArray F) :
    (tobytes np arr).length = payloadBytes tqDtF32 arr.shape.prod := by
  rw [tobytes, length_flatMap_const (fun k => length_toLE 4 _), List.length_range]
  rfl

theorem length_blockQ80 (b : Nat → F) : (blockQ80 np b).length = 34 := by
  rw [blockQ80, List.length_append, length_toLE, List.length_map, List.length_range]

theorem length_blockQ40 (b : Nat → F) : (blockQ40 np b).length = 18 := by
  rw [blockQ40, List.length_append, length_toLE, List.length_map, List.length_range]

theorem blocks_total {arr : NdArray F} {row : (Nat → F) → List UInt8} {n : Nat}
    (hrow : ∀ b, (row b).length = n) (hblocks : arr.shape.prod % tqGroupSize = 0) :
    ∃ bs, blocks arr row = .ok bs ∧ bs.length = arr.shape.prod / tqGroupSize * n := by
  refine ⟨_, if_neg (not_not.mpr hblocks), ?_⟩
  rw [length_flatMap_const fun k => hrow _, List.length_range]

/-- Whole blocks are quantized. -/
theorem quantize_total {arr : NdArray F} {qt : Nat} (hqt : qt = tqDtQ40 ∨ qt = tqDtQ80)
    (hblocks : arr.shape.prod % tqGroupSize = 0) :
    ∃ bs, quantize np arr qt = .ok bs ∧ bs.length = payloadBytes qt arr.shape.prod := by
  rcases hqt with rfl | rfl
  · obtain ⟨bs, hbs, hlen⟩ := blocks_total (length_blockQ40 np) hblocks
    refine ⟨bs, hbs, hlen.trans ?_⟩
    exact (if_neg (not_not.mpr hblocks)).symm
  · obtain ⟨bs, hbs, hlen⟩ := blocks_total (length_blockQ80 np) hblocks
    refine ⟨bs, hbs, hlen.trans ?_⟩
    exact (if_neg (not_not.mpr hblocks)).symm

/-! ## Tensors -/

theorem emitF32_total {ts : List Tensor} {name : List UInt8} {arr : NdArray F}
    (hname : name.length < tqNameBytes) (hrank : arr.shape.length ≤ 4) :
    emitF32 np ts name arr = .ok (ts ++ [plain np name arr]) := by
  refine add_ok.mpr ⟨⟨hname, hrank, ?_⟩, rfl⟩
  show dtypeNbytes tqDtF32 arr.shape.prod = .ok (tobytes np arr).length
  rw [length_tobytes]
  exact dtypeNbytes_total (by decide) fun h => absurd h (by decide)

theorem emit_total {ts : List Tensor} {name : List UInt8} {arr : NdArray F} {qt : Nat}
    (hqt : qt = tqDtQ40 ∨ qt = tqDtQ80) (hname : name.length < tqNameBytes)
    (hrank : arr.shape.length ≤ 4) (hblocks : arr.shape.prod % tqGroupSize = 0) :
    emit np ts name arr qt = .ok (ts ++ [quantized np qt name arr]) := by
  obtain ⟨bs, hbs, hlen⟩ := quantize_total np hqt hblocks
  refine bind_eq_ok.mpr ⟨bs, hbs, ?_⟩
  have hpay : (quantize np arr qt).toOption.getD [] = bs := by rw [hbs]; rfl
  unfold quantized
  rw [hpay]
  refine add_ok.mpr ⟨⟨hname, hrank, ?_⟩, rfl⟩
  show dtypeNbytes qt arr.shape.prod = .ok bs.length
  rw [hlen]
  refine dtypeNbytes_total ?_ fun _ => hblocks
  rcases hqt with rfl | rfl <;> decide

theorem foldlM_total {α : Type} {step : List Tensor → α → Except EtqError (List Tensor)}
    {out : α → List Tensor} {as : List α} (hstep : ∀ a ∈ as, ∀ ts, step ts a = .ok (ts ++ out a)) :
    ∀ ts, as.foldlM step ts = .ok (ts ++ as.flatMap out) := by
  induction as with
  | nil => exact fun ts => congrArg Except.ok (List.append_nil ts).symm
  | cons a as ih =>
      intro ts
      rw [List.foldlM_cons, hstep a List.mem_cons_self, List.flatMap_cons, ← List.append_assoc]
      exact ih (fun b hb => hstep b (List.mem_cons_of_mem a hb)) _

section Model
variable {R : Type} {c : Config R} {w : Weights F} {tok : Option (List (List UInt8) × NdArray F)}

theorem layerName_short {l : Nat} (hl : l < 1000) (s : TqLayerSlot) :
    (layerName l s).length < tqNameBytes := by
  have hsuffix := length_suffix s
  rw [layerName_eq hl, List.length_append]
  simp only [List.length_cons, List.length_nil, tqNameBytes]
  omega

/-- A matrix of whole rows is whole blocks. -/
theorem matrix_blocks {shape : List Nat} {r n : Nat} (hshape : shape = [r, n])
    (hn : n % tqGroupSize = 0) :
    shape.prod % tqGroupSize = 0 := by
  rw [hshape, List.prod_cons, List.prod_singleton, Nat.mul_mod, hn, Nat.mul_zero, Nat.zero_mod]

theorem emitLayer_total (hc : c.Valid) (hw : w.Shaped c) {l : Nat} (hl : l < c.nLayers)
    (ts : List Tensor) :
    emitLayer np c.qtype w ts l = .ok (ts ++ TqLayerSlot.all.map (layerTensor np c.qtype w l)) := by
  have hl' : l < 1000 := hl.trans_le hc.layerNames
  have hshape := hw.layers l hl
  have hvec : ∀ s ∈ [TqLayerSlot.rmsAtt, .rmsFfn], (w.layers l s).shape.length ≤ 4 := by
    intro s hs
    rw [hshape s]
    simp only [List.mem_cons, List.not_mem_nil, or_false] at hs
    rcases hs with rfl | rfl <;> exact Nat.le_of_ble_eq_true rfl
  have hmat : ∀ s ∈ [TqLayerSlot.wq, .wk, .wv, .wo, .w1, .w2, .w3], ∀ ts,
      emit np ts (layerName l s) (w.layers l s) c.qtype =
        .ok (ts ++ [quantized np c.qtype (layerName l s) (w.layers l s)]) := by
    intro s hs ts
    have hrank : (w.layers l s).shape.length ≤ 4 := by
      rw [hshape s]
      cases s <;> exact Nat.le_of_ble_eq_true rfl
    refine emit_total np hc.qtype (layerName_short hl' s) hrank ?_
    rw [hshape s]
    simp only [List.mem_cons, List.not_mem_nil, or_false] at hs
    rcases hs with rfl | rfl | rfl | rfl | rfl | rfl | rfl
    case inr.inr.inr.inr.inr.inl => exact matrix_blocks rfl hc.hiddenDimBlocks
    all_goals exact matrix_blocks rfl hc.dimBlocks
  unfold emitLayer
  rw [emitF32_total np (layerName_short hl' _) (hvec _ List.mem_cons_self)]
  refine bind_eq_ok.mpr ⟨_, rfl, bind_eq_ok.mpr ⟨_, emitF32_total np (layerName_short hl' _)
    (hvec _ (List.mem_cons_of_mem _ List.mem_cons_self)), (foldlM_total hmat _).trans ?_⟩⟩
  simp [TqLayerSlot.all, layerTensor]

theorem addTokenizer_total {ts : List Tensor} {pieces : List (List UInt8)} {scores : NdArray F}
    (hscores : scores.shape.prod = pieces.length) :
    addTokenizer np ts pieces scores = .ok (ts ++ tokTensors np (some (pieces, scores))) := by
  have hword : ∀ n, dtypeNbytes tqDtU32 [n].prod = .ok (n * 4) := by
    intro n
    rw [List.prod_singleton]
    rfl
  have hlen : ∀ ns : List Nat, (ns.flatMap (toLE 4)).length = ns.length * 4 :=
    length_flatMap_const (length_toLE 4)
  have hcumsum : (cumsum pieces).length = pieces.length + 1 := by
    rw [cumsum, List.length_map, List.length_range]
  have hscores' : dtypeNbytes tqDtF32 [pieces.length].prod = .ok (tobytes np scores).length := by
    rw [length_tobytes, hscores, List.prod_singleton]
    exact dtypeNbytes_total (by decide) fun h => absurd h (by decide)
  have hoffs : dtypeNbytes tqDtU32 [pieces.length + 1].prod =
      .ok ((cumsum pieces).flatMap (toLE 4)).length := by
    rw [hword, hlen, hcumsum]
  have hblob : dtypeNbytes tqDtU8 [pieces.flatten.length].prod = .ok pieces.flatten.length := by
    rw [List.prod_singleton]
    rfl
  have hsorted : dtypeNbytes tqDtU32 [pieces.length].prod =
      .ok ((buildSorted pieces).flatMap (toLE 4)).length := by
    rw [hword, hlen, length_buildSorted]
  have hjoin : ∀ a b c d : Tensor, ts ++ [a] ++ [b] ++ [c] ++ [d] = ts ++ [a, b, c, d] := by
    intro a b c d
    simp only [List.append_assoc, List.cons_append, List.nil_append]
  refine bind_eq_ok.mpr
    ⟨_, add_ok.mpr ⟨⟨(by decide : (ascii "tok.scores").length < tqNameBytes), ?_, hscores'⟩, rfl⟩,
    bind_eq_ok.mpr ⟨_,
    add_ok.mpr ⟨⟨(by decide : (ascii "tok.offs").length < tqNameBytes), ?_, hoffs⟩, rfl⟩,
    bind_eq_ok.mpr ⟨_,
    add_ok.mpr ⟨⟨(by decide : (ascii "tok.blob").length < tqNameBytes), ?_, hblob⟩, rfl⟩,
    add_ok.mpr ⟨⟨(by decide : (ascii "tok.sorted").length < tqNameBytes), ?_, hsorted⟩,
    (hjoin _ _ _ _).symm⟩⟩⟩⟩
  all_goals exact Nat.le_of_ble_eq_true rfl

/-- **All tensors** are added. -/
theorem modelTensors_total (hc : c.Valid) (hw : w.Shaped c)
    (hcls : c.sharedClassifier = 0 → w.cls.isSome)
    (htok : ∀ p, tok = some p → p.2.shape.prod = p.1.length) :
    modelTensors np c w tok = .ok (allTensors np c w tok) := by
  have hemb : emit np [] (ascii "tok_emb") w.tokEmb c.qtype =
      .ok ([] ++ [quantized np c.qtype (ascii "tok_emb") w.tokEmb]) :=
    emit_total np hc.qtype (by decide) (by rw [hw.tokEmb]; exact Nat.le_of_ble_eq_true rfl)
      (matrix_blocks hw.tokEmb hc.dimBlocks)
  have hfinal : ∀ ts, emitF32 np ts (ascii "rms_final") w.rmsFinal =
      .ok (ts ++ [plain np (ascii "rms_final") w.rmsFinal]) := fun ts =>
    emitF32_total np (by decide) (by rw [hw.rmsFinal]; exact Nat.le_of_ble_eq_true rfl)
  have hown : ∀ ts, emitCls np c w ts = .ok (ts ++ clsTensors np c w) := by
    intro ts
    unfold emitCls clsTensors
    by_cases hs : c.sharedClassifier = 0
    · obtain ⟨cls, hsome⟩ := Option.isSome_iff_exists.mp (hcls hs)
      have hshape := hw.cls cls hsome
      rw [if_pos hs, if_pos hs, hsome]
      exact emit_total np hc.qtype (by decide) (by rw [hshape]; exact Nat.le_of_ble_eq_true rfl)
        (matrix_blocks hshape hc.dimBlocks)
    · rw [if_neg hs, if_neg hs, List.append_nil]
  have hlayers : ∀ ts, (List.range c.nLayers).foldlM (emitLayer np c.qtype w) ts =
      .ok (ts ++ layerTensors np c w) :=
    foldlM_total fun l hl ts => emitLayer_total np hc hw (List.mem_range.mp hl) ts
  unfold modelTensors allTensors globalTensors
  refine bind_eq_ok.mpr ⟨_, hemb, bind_eq_ok.mpr ⟨_, hfinal _, bind_eq_ok.mpr ⟨_, hown _,
    bind_eq_ok.mpr ⟨_, hlayers _, ?_⟩⟩⟩⟩
  cases tok with
  | none => exact congrArg Except.ok (List.append_nil _).symm
  | some p => exact addTokenizer_total np (htok p rfl)

end Model

end Emit

/-! ## The file -/

theorem packEntry_total {t : Tensor} {off : Nat} (h : (t.entry off).InRange) :
    packEntry t off = .ok (t.entry off).encode := by
  have hlimits : ∀ f ∈ t.fields off, f.2 < f.1.limit := by
    intro f hf
    have hfield := h.fields (f.1.width, f.2) (entry_fields t off ▸ List.mem_map_of_mem hf)
    have hunsigned : f.1 ≠ .i := by
      simp only [Tensor.fields, List.mem_cons, List.not_mem_nil, or_false] at hf
      rcases hf with rfl | rfl | rfl | rfl | rfl | rfl | rfl | rfl <;> exact nofun
    exact hfield.trans_le (StructCode.le_limit hunsigned)
  exact map_eq_ok.mpr ⟨_, if_pos hlimits, rfl⟩

theorem packEntries_total : ∀ {ts : List Tensor} {s : Nat}, (∀ e ∈ entriesFrom s ts, e.InRange) →
    packEntries (align s) ts =
      .ok ((entriesFrom s ts).map TqTensorEntry.encode, align (top s (ts.map Tensor.item)))
  | [], s, _ => rfl
  | t :: ts, s, hin => by
      have hcons : entriesFrom s (t :: ts) =
          t.entry (align s) :: entriesFrom (align s + t.payload.length) ts := by
        rw [align_eq]
        rfl
      rw [hcons] at hin ⊢
      have hrest := packEntries_total fun e he => hin e (List.mem_cons_of_mem _ he)
      refine bind_eq_ok.mpr ⟨_, packEntry_total (hin _ List.mem_cons_self),
        bind_eq_ok.mpr ⟨_, hrest, ?_⟩⟩
      rw [align_eq s]
      rfl

theorem padTo_total {fp : List UInt8} {target : Nat} (h : fp.length ≤ target) :
    ∃ file, padTo fp target = .ok file :=
  ⟨_, if_neg (Nat.not_lt.mpr h)⟩

theorem writePayloads_total : ∀ {ts : List Tensor} {s : Nat} {fp : List UInt8},
    (∀ e ∈ entriesFrom s ts, e.InRange) → fp.length ≤ align s →
      ∃ file, writePayloads fp (ts.zip ((entriesFrom s ts).map TqTensorEntry.encode)) = .ok file
  | [], s, fp, _, _ => ⟨fp, rfl⟩
  | t :: ts, s, fp, hin, hlen => by
      have hcons : entriesFrom s (t :: ts) =
          t.entry (align s) :: entriesFrom (align s + t.payload.length) ts := by
        rw [align_eq]
        rfl
      rw [hcons] at hin ⊢
      obtain ⟨fp', hpad⟩ := padTo_total hlen
      have hnext : (fp' ++ t.payload).length ≤ align (align s + t.payload.length) := by
        rw [List.length_append, (padTo_ok hpad).1, align_eq (align s + t.payload.length)]
        exact le_roundUp _ _
      obtain ⟨file, hrest⟩ :=
        writePayloads_total (fun e he => hin e (List.mem_cons_of_mem _ he)) hnext
      refine ⟨file, ?_⟩
      rw [List.map_cons, List.zip_cons_cons, writePayloads, leAt_entry (hin _ List.mem_cons_self)]
      exact bind_eq_ok.mpr ⟨fp', hpad, hrest⟩

/-- The words of a header fit their fields. -/
structure Config.Fits {R : Type} (c : Config R) : Prop where
  dims : ∀ n ∈ [c.dim, c.hiddenDim, c.nLayers, c.nHeads, c.nKvHeads, c.vocabSize,
    c.seqLen], n < 2 ^ 31
  words : ∀ n ∈ [c.qtype, c.sharedClassifier, c.bosToken, c.eosToken], n < 2 ^ 32

theorem packSize_header {R : Type} (f32 : R → UInt32) (c : Config R)
    (count tableOff dataOff total : Nat) :
    packSize ((c.fields f32 count tableOff dataOff total).map fun f => (f.1.width, f.2)) = 96 := by
  unfold packSize Config.fields
  simp only [List.map_cons, List.map_nil, List.sum_cons, List.sum_nil, StructCode.width,
    Nat.reduceAdd]

/-- **The file** is written when every number fits. -/
theorem write_total {R : Type} {f32 : R → UInt32} {c : Config R} {ts : List Tensor} (hfits : c.Fits)
    (htable : align (tableEnd ts) < 2 ^ 32) (htotal : total ts < 2 ^ 64)
    (hin : ∀ e ∈ entries ts, e.InRange) : ∃ file, write f32 c ts = .ok file := by
  have hcount : (entries ts).length = ts.length := by
    unfold entries entriesFrom
    rw [List.length_zipWith, length_place, List.length_map, Nat.min_self]
  have hend : tableEnd ts ≤ align (tableEnd ts) := by
    rw [align_eq]
    exact le_roundUp _ _
  have hlimits : ∀ f ∈ c.fields f32 ts.length tqHeaderBytes (align (tableEnd ts)) (total ts),
      f.2 < f.1.limit := by
    have hdims := hfits.dims
    have hwords := hfits.words
    simp only [List.forall_mem_cons] at hdims hwords
    obtain ⟨h₁, h₂, h₃, h₄, h₅, h₆, h₇, -⟩ := hdims
    obtain ⟨hq, hs, hb, he, -⟩ := hwords
    have hshort : ts.length < 2 ^ 32 := by
      have hlt := hend.trans_lt htable
      unfold tableEnd at hlt
      omega
    simp only [Config.fields, List.forall_mem_cons]
    exact ⟨by decide, by decide, by decide, by decide, hshort, by decide, htable, by decide,
      htotal, h₁, h₂, h₃, h₄, h₅, h₆, h₇, hq, by decide, hs, (f32 c.ropeTheta).toNat_lt,
      (f32 c.normEps).toNat_lt, hb, he, List.forall_mem_nil _⟩
  have hpack := structPack_total hlimits
  revert hpack
  generalize hhdr :
    pack ((c.fields f32 ts.length tqHeaderBytes (align (tableEnd ts)) (total ts)).map
    fun f => (f.1.width, f.2)) = hdr
  intro hpack
  have hheader : hdr.length = 96 := by
    rw [← hhdr, length_pack, packSize_header]
  have hflat : ((entries ts).map TqTensorEntry.encode).flatten.length =
      ts.length * tqEntryBytes := by
    rw [← List.flatMap_def, length_entries hin, hcount]
  have hfp : (hdr ++ List.replicate (tqHeaderBytes - 96) 0 ++
      ((entries ts).map TqTensorEntry.encode).flatten).length = tableEnd ts := by
    rw [List.length_append, List.length_append, hheader, List.length_replicate, hflat]
    unfold tqHeaderBytes tqEntryBytes tableEnd tqHeaderBytes
    omega
  obtain ⟨fp, hpad⟩ := padTo_total (hfp.le.trans hend)
  obtain ⟨out, hout⟩ := writePayloads_total hin (padTo_ok hpad).1.le
  obtain ⟨-, hlen, -⟩ := @writePayloads_ok ts _ _ _ hin (padTo_ok hpad).1.le hout
  obtain ⟨file, hfile⟩ := padTo_total hlen
  exact ⟨file,
    bind_eq_ok.mpr ⟨_, packEntries_total hin,
    bind_eq_ok.mpr ⟨hdr, hpack, bind_eq_ok.mpr ⟨fp, hpad, bind_eq_ok.mpr ⟨out, hout, hfile⟩⟩⟩⟩⟩

/-! ## Models -/

/-- The dtype and the shape of a tensor fit their words. -/
structure Tensor.Fits (t : Tensor) : Prop where
  dtype : t.dtype < 2 ^ 32
  rank : t.shape.length ≤ 4
  shape : ∀ n ∈ t.shape, n < 2 ^ 32

theorem Tensor.Fits.of_shape {t : Tensor} {shape : List Nat} (hdtype : t.dtype < 2 ^ 32)
    (hshape : t.shape = shape) (hrank : shape.length ≤ 4) (hlt : ∀ n ∈ shape, n < 2 ^ 32) :
    t.Fits :=
  ⟨hdtype, hshape ▸ hrank, hshape ▸ hlt⟩

theorem Tensor.Fits.inRange {t : Tensor} (h : t.Fits) {off : Nat}
    (hend : off + t.payload.length < 2 ^ 64) : (t.entry off).InRange := by
  have hget : ∀ i, t.shape.getD i 0 < 2 ^ 32 := by
    intro i
    rcases Nat.lt_or_ge i t.shape.length with hi | hi
    · rw [List.getD_eq_getElem _ _ hi]
      exact h.shape _ (List.getElem_mem hi)
    · rw [List.getD_eq_default _ _ hi]
      decide
  refine ⟨length_packName _, ?_⟩
  simp only [TqTensorEntry.fields, Tensor.entry, List.forall_mem_cons]
  have hrank := h.rank
  exact ⟨h.dtype, by omega, hget 0, hget 1, hget 2, hget 3, by omega, by omega,
    List.forall_mem_nil _⟩

section Model
variable {F R : Type} {np : Numpy F} {c : Config R} {w : Weights F}
variable {tok : Option (List (List UInt8) × NdArray F)}

theorem kvDim_le (hc : c.Valid) : c.kvDim ≤ c.dim := by
  have hle : c.nKvHeads ≤ c.nHeads := Nat.le_of_dvd hc.nHeads (Nat.dvd_of_mod_eq_zero hc.groups)
  exact (Nat.mul_le_mul_left _ hle).trans (Nat.div_mul_le_self _ _)

theorem allTensors_fits (hc : c.Valid) (hw : w.Shaped c) (hfits : c.Fits)
    (htok : ∀ p, tok = some p → p.1.length = c.vocabSize ∧ p.1.flatten.length < 2 ^ 32) :
    ∀ t ∈ allTensors np c w tok, t.Fits := by
  have hdims := hfits.dims
  simp only [List.forall_mem_cons] at hdims
  obtain ⟨hdim, hhidden, -, -, -, hvocab, -, -⟩ := hdims
  have hkv := kvDim_le hc
  have hqt : c.qtype < 2 ^ 32 := hfits.words _ List.mem_cons_self
  have hlt : ∀ {n}, n < 2 ^ 31 → n < 2 ^ 32 := by
    intro n hn
    omega
  have hmatrix : ∀ {a b}, a < 2 ^ 31 → b < 2 ^ 31 → ∀ n ∈ [a, b], n < 2 ^ 32 := by
    intro a b ha hb
    exact List.forall_mem_cons.mpr ⟨hlt ha, List.forall_mem_cons.mpr ⟨hlt hb, nofun⟩⟩
  have htwo : ∀ a b : Nat, [a, b].length ≤ 4 := fun _ _ => Nat.le_of_ble_eq_true rfl
  have hone : ∀ a : Nat, [a].length ≤ 4 := fun _ => Nat.le_of_ble_eq_true rfl
  have hvector : ∀ {a}, a < 2 ^ 32 → ∀ n ∈ [a], n < 2 ^ 32 := fun ha =>
    List.forall_mem_cons.mpr ⟨ha, nofun⟩
  intro t ht
  rcases mem_allTensors.mp ht with hglobal | ⟨l, hl, s, rfl⟩
  · rcases List.mem_append.mp hglobal with hglobal | htoken
    · rcases List.mem_append.mp hglobal with hglobal | hcls
      · simp only [List.mem_cons, List.not_mem_nil, or_false] at hglobal
        rcases hglobal with rfl | rfl
        · exact .of_shape hqt hw.tokEmb (htwo _ _) (hmatrix hvocab hdim)
        · exact .of_shape (by decide : tqDtF32 < 2 ^ 32) hw.rmsFinal (hone _) (hvector (hlt hdim))
      · unfold clsTensors at hcls
        split at hcls
        · rw [Option.mem_toList, Option.map_eq_some_iff] at hcls
          obtain ⟨cls, hsome, rfl⟩ := hcls
          exact .of_shape hqt (hw.cls cls hsome) (htwo _ _) (hmatrix hvocab hdim)
        · cases hcls
    · cases tok with
      | none => cases htoken
      | some p =>
          obtain ⟨pieces, scores⟩ := p
          obtain ⟨hlen, hblob⟩ : pieces.length = c.vocabSize ∧ pieces.flatten.length <
            2 ^ 32 := htok _ rfl
          simp only [tokTensors, List.mem_cons, List.not_mem_nil, or_false] at htoken
          rcases htoken with rfl | rfl | rfl | rfl
          · exact .of_shape (by decide : tqDtF32 < 2 ^ 32) rfl (hone _) (hvector (by omega))
          · exact .of_shape (by decide : tqDtU32 < 2 ^ 32) rfl (hone _) (hvector (by omega))
          · exact .of_shape (by decide : tqDtU8 < 2 ^ 32) rfl (hone _) (hvector hblob)
          · exact .of_shape (by decide : tqDtU32 < 2 ^ 32) rfl (hone _) (hvector (by omega))
  · have hshape : (layerTensor np c.qtype w l s).shape = c.shape s := by
      have := hw.layers l hl s
      cases s <;> exact this
    have hdtype : (layerTensor np c.qtype w l s).dtype < 2 ^ 32 := by
      cases s
      case rmsAtt => exact (by decide : tqDtF32 < 2 ^ 32)
      case rmsFfn => exact (by decide : tqDtF32 < 2 ^ 32)
      all_goals exact hqt
    refine .of_shape hdtype hshape ?_ ?_
    · cases s <;> exact Nat.le_of_ble_eq_true rfl
    · cases s
      case rmsAtt => exact hvector (hlt hdim)
      case rmsFfn => exact hvector (hlt hdim)
      case wk => exact hmatrix (hkv.trans_lt hdim) hdim
      case wv => exact hmatrix (hkv.trans_lt hdim) hdim
      case w1 => exact hmatrix hhidden hdim
      case w2 => exact hmatrix hdim hhidden
      case w3 => exact hmatrix hhidden hdim
      all_goals exact hmatrix hdim hdim

/-- A model has few tensors. -/
theorem length_allTensors (hc : c.Valid) : (allTensors np c w tok).length ≤ 9007 := by
  have hglobal : (globalTensors np c w).length ≤ 3 := by
    unfold globalTensors clsTensors
    split
    · cases w.cls <;> exact Nat.le_of_ble_eq_true rfl
    · exact Nat.le_of_ble_eq_true rfl
  have htoken : (tokTensors np tok).length ≤ 4 := by
    cases tok <;> exact Nat.le_of_ble_eq_true rfl
  have hlayers : (layerTensors np c w).length = c.nLayers * 9 := by
    rw [layerTensors, length_flatMap_const fun l => List.length_map _, List.length_range]
    rfl
  have := hc.layerNames
  rw [allTensors, List.length_append, List.length_append, hlayers]
  omega

/-- **The exporter** writes every model of a supported configuration, as long
as the words of the header fit and the file has less than 2^64 bytes. -/
theorem writeModel_total (hc : c.Valid) (hw : w.Shaped c) (hfits : c.Fits)
    (hcls : c.sharedClassifier = 0 → w.cls.isSome)
    (htok : ∀ p, tok = some p → p.1.length = c.vocabSize ∧ p.1.flatten.length < 2 ^ 32)
    (hscores : ∀ p, tok = some p → p.2.shape.prod = p.1.length)
    (htotal : total (allTensors np c w tok) < 2 ^ 64) (f32 : R → UInt32) :
    ∃ file, writeModel np f32 c w tok = .ok file := by
  have hcount := @length_allTensors F R np c w tok hc
  have hlow := @roundUp_lt tqAlign (by decide) (tableEnd (allTensors np c w tok))
  have htable : align (tableEnd (allTensors np c w tok)) < 2 ^ 32 := by
    rw [align_eq]
    unfold tableEnd tqHeaderBytes tqAlign at *
    omega
  have hin : ∀ e ∈ entries (allTensors np c w tok), e.InRange := by
    intro e he
    obtain ⟨p, hp, rfl⟩ := mem_entriesFrom.mp he
    have ht := allTensors_fits hc hw hfits htok p.1 (List.of_mem_zip hp).1
    exact ht.inRange ((region_le_total hp).trans_lt htotal)
  obtain ⟨file, hfile⟩ := @write_total R f32 c _ hfits htable htotal hin
  exact ⟨file, bind_eq_ok.mpr ⟨_, modelTensors_total np hc hw hcls hscores, hfile⟩⟩

/-- No dtype takes more than four bytes for a number. -/
theorem Tensor.Valid.length_le {t : Tensor} (h : t.Valid) :
    t.payload.length ≤ t.shape.prod * 4 := by
  have hpay := h.payload
  unfold dtypeNbytes at hpay
  split_ifs at hpay <;> injection hpay with hpay <;> unfold tqGroupSize at * <;> omega

theorem total_le {ts : List Tensor} (hts : ∀ t ∈ ts, t.Valid) :
    total ts ≤ tqHeaderBytes + 128 * ts.length + (ts.map fun t => t.shape.prod * 4).sum + 64 := by
  have hitems : ∀ i ∈ ts.map Tensor.item, i.1 = tqAlign := by
    intro i hi
    obtain ⟨t, -, rfl⟩ := List.mem_map.mp hi
    rfl
  have htop := top_le (by decide) hitems (tableEnd ts)
  have hround := @roundUp_lt tqAlign (by decide) (top (tableEnd ts) (ts.map Tensor.item))
  have hsum : ((ts.map Tensor.item).map Prod.snd).sum ≤ (ts.map fun t => t.shape.prod * 4).sum := by
    rw [List.map_map]
    exact List.sum_le_sum fun t ht => (hts t ht).length_le
  rw [List.length_map] at htop
  rw [total, align_eq]
  unfold tableEnd tqHeaderBytes tqAlign at *
  omega

end Model

/-! ## Small models -/

/-- What numpy does with zeros; a float is its bits. -/
def zeroNumpy : Numpy UInt32 where
  bits x := x
  scaleQ80 _ := 0
  valueQ80 _ _ := 0
  scaleQ40 _ := 0x8000
  valueQ40 _ _ := 8

/-- One layer and a single piece. -/
def smallConfig (dim hiddenDim nHeads nKvHeads seqLen : Nat) : Config UInt32 where
  dim := dim
  hiddenDim := hiddenDim
  nLayers := 1
  nHeads := nHeads
  nKvHeads := nKvHeads
  vocabSize := 1
  seqLen := seqLen
  qtype := tqDtQ40
  sharedClassifier := 1
  ropeTheta := 0x461c4000
  normEps := 0x3727c5ac
  bosToken := 0
  eosToken := 0

def zeroWeights (c : Config UInt32) : Weights UInt32 where
  tokEmb := ⟨[c.vocabSize, c.dim], fun _ => 0⟩
  rmsFinal := ⟨[c.dim], fun _ => 0⟩
  cls := none
  layers _ s := ⟨c.shape s, fun _ => 0⟩

def smallTok : Option (List (List UInt8) × NdArray UInt32) := some ([[97]], ⟨[1], fun _ => 0⟩)

/-- The shapes of a small model. -/
def smallShapes (c : Config UInt32) : List (List Nat) :=
  [[1, c.dim], [c.dim]] ++ TqLayerSlot.all.map c.shape ++ [[1], [2], [1], [1]]

theorem zeroWeights_shaped (c : Config UInt32) : (zeroWeights c).Shaped c :=
  ⟨rfl, rfl, nofun, fun _ _ _ => rfl⟩

/-- **A small model** is written. -/
theorem smallModel_written {dim hiddenDim nHeads nKvHeads seqLen : Nat}
    (hc : (smallConfig dim hiddenDim nHeads nKvHeads seqLen).Valid)
    (hfits : (smallConfig dim hiddenDim nHeads nKvHeads seqLen).Fits)
    (hsize : ((smallShapes (smallConfig dim hiddenDim nHeads nKvHeads seqLen)).map
      fun shape => shape.prod * 4).sum < 2 ^ 63) :
    ∃ file, writeModel zeroNumpy id (smallConfig dim hiddenDim nHeads nKvHeads seqLen)
      (zeroWeights (smallConfig dim hiddenDim nHeads nKvHeads seqLen)) smallTok = .ok file := by
  have hw := zeroWeights_shaped (smallConfig dim hiddenDim nHeads nKvHeads seqLen)
  have hscores : ∀ p, smallTok = some p → p.2.shape.prod = p.1.length :=
    fun p hp => by cases hp; rfl
  have hadded := modelTensors_total zeroNumpy hc hw (fun h => absurd h (Nat.succ_ne_zero 0)) hscores
  obtain ⟨-, hvalid, -⟩ := modelTensors_ok _ _ _ _ hadded
  have htotal := total_le hvalid
  have hlen :=
    @length_allTensors _ _ zeroNumpy _
    (zeroWeights (smallConfig dim hiddenDim nHeads nKvHeads seqLen))
    smallTok hc
  refine writeModel_total hc hw hfits (fun h => absurd h (Nat.succ_ne_zero 0)) ?_ hscores ?_ id
  · intro p hp
    cases hp
    exact ⟨rfl, Nat.le_of_ble_eq_true rfl⟩
  · have hshapes : ((allTensors zeroNumpy (smallConfig dim hiddenDim nHeads nKvHeads seqLen)
        (zeroWeights (smallConfig dim hiddenDim nHeads nKvHeads seqLen)) smallTok).map
          fun t => t.shape.prod * 4) =
        (smallShapes (smallConfig dim hiddenDim nHeads nKvHeads seqLen)).map
          fun shape => shape.prod * 4 := rfl
    rw [hshapes] at htotal
    unfold tqHeaderBytes at htotal
    omega

/-- The dimensions of a small model. -/
structure SmallDims (d f h k n : Nat) (m : TqModel) : Prop where
  dim : m.dim = d
  hiddenDim : m.hiddenDim = f
  nLayers : m.nLayers = 1
  nHeads : m.nHeads = h
  nKvHeads : m.nKvHeads = k
  vocabSize : m.vocabSize = 1
  seqLen : m.seqLen = n
  headSize : m.headSize = d / h
  kvDim : m.kvDim = d / h * k

/-- **A small model** is accepted. -/
theorem smallModel_accepted {dim hiddenDim nHeads nKvHeads seqLen : Nat}
    (hc : (smallConfig dim hiddenDim nHeads nKvHeads seqLen).Valid)
    (hfits : (smallConfig dim hiddenDim nHeads nKvHeads seqLen).Fits)
    (hsize : ((smallShapes (smallConfig dim hiddenDim nHeads nKvHeads seqLen)).map
      fun shape => shape.prod * 4).sum < 2 ^ 63) {arena : TqArena} (hmod : 16 ∣ arena.sizeMod)
    (hcap : arena.cap < arena.sizeMod) (hroom : arena.cap = 88) :
    ∃ file m, writeModel zeroNumpy id (smallConfig dim hiddenDim nHeads nKvHeads seqLen)
        (zeroWeights (smallConfig dim hiddenDim nHeads nKvHeads seqLen)) smallTok = .ok file ∧
      Accepted file (UInt64.ofNat file.length) arena m ∧
        SmallDims dim hiddenDim nHeads nKvHeads seqLen m := by
  obtain ⟨file, hfile⟩ := smallModel_written hc hfits hsize
  obtain ⟨-, hacc⟩ := writeModel_accepted hc (zeroWeights_shaped _)
    (fun p hp => by cases hp; rfl) hfile hmod
    hcap hroom.ge
  exact ⟨file, _, hfile, hacc, rfl, rfl, rfl, rfl, rfl, rfl, rfl, rfl, rfl⟩

end TinyLlm.Etq
