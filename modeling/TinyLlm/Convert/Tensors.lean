/-
# `TinyLlm.Convert.Tensors` — the tensors of an exported model

`write_model` adds its tensors one call after the other, and each call may
raise.  When none does, the tensors are a list that can be written down
(`modelTensors_ok`): the globals, nine for every layer, the tokenizer.  Their
names, dtypes and shapes are those of the directory that the engine asks for.
-/
import TinyLlm.Convert.Writer

namespace TinyLlm.Etq

open Bytes Bump

/-! ## Calls that succeed -/

/-- A tensor that its constructor lets through. -/
structure Tensor.Valid (t : Tensor) : Prop where
  name : t.name.length < tqNameBytes
  rank : t.shape.length ≤ 4
  payload : dtypeNbytes t.dtype t.shape.prod = .ok t.payload.length

theorem add_ok {ts ts' : List Tensor} {name : List UInt8} {dtype : Nat} {shape : List Nat}
    {payload : List UInt8} : add ts name dtype shape payload = .ok ts' ↔
      Tensor.Valid ⟨name, dtype, shape, payload⟩ ∧ ts' = ts ++ [⟨name, dtype, shape, payload⟩] := by
  unfold add Tensor.new
  constructor
  · intro h
    obtain ⟨want, hwant, h⟩ := bind_eq_ok.mp h
    split at h
    · cases h
    · next hlen =>
        obtain ⟨t, ht, h⟩ := bind_eq_ok.mp h
        split_ifs at ht with hname hrank
        cases ht
        cases h
        exact ⟨⟨Nat.not_le.mp hname, Nat.not_lt.mp hrank,
          hwant.trans (by rw [not_not.mp hlen])⟩, rfl⟩
  · rintro ⟨⟨hname, hrank, hwant⟩, rfl⟩
    refine bind_eq_ok.mpr ⟨_, hwant, ?_⟩
    rw [if_neg (not_not.mpr rfl), if_neg (Nat.not_le.mpr hname), if_neg (Nat.not_lt.mpr hrank)]
    rfl

section Emit
variable {F : Type} (np : Numpy F)

/-- A tensor of floats. -/
def plain (name : List UInt8) (arr : NdArray F) : Tensor :=
  ⟨name, tqDtF32, arr.shape, tobytes np arr⟩

/-- A quantized tensor. -/
def quantized (qt : Nat) (name : List UInt8) (arr : NdArray F) : Tensor :=
  ⟨name, qt, arr.shape, (quantize np arr qt).toOption.getD []⟩

theorem emitF32_ok {ts ts' : List Tensor} {name : List UInt8} {arr : NdArray F}
    (h : emitF32 np ts name arr = .ok ts') :
    (plain np name arr).Valid ∧ ts' = ts ++ [plain np name arr] :=
  add_ok.mp h

theorem emit_ok {ts ts' : List Tensor} {name : List UInt8} {arr : NdArray F} {qt : Nat}
    (h : emit np ts name arr qt = .ok ts') :
    (quantized np qt name arr).Valid ∧ ts' = ts ++ [quantized np qt name arr] := by
  obtain ⟨payload, hq, h⟩ := bind_eq_ok.mp h
  have hpay : (quantize np arr qt).toOption.getD [] = payload := by rw [hq]; rfl
  unfold quantized
  rw [hpay]
  exact add_ok.mp h

/-- The tensor of a slot of a layer. -/
def layerTensor (qt : Nat) (w : Weights F) (l : Nat) (s : TqLayerSlot) : Tensor :=
  match s with
  | .rmsAtt | .rmsFfn => plain np (layerName l s) (w.layers l s)
  | _ => quantized np qt (layerName l s) (w.layers l s)

/-- Steps that each append what they emit append it all. -/
theorem foldlM_append {α : Type} {step : List Tensor → α → Except EtqError (List Tensor)}
    {out : α → List Tensor} (hstep : ∀ ts a ts', step ts a = .ok ts' →
      (∀ t ∈ out a, t.Valid) ∧ ts' = ts ++ out a) :
    ∀ {as : List α} {ts ts' : List Tensor}, as.foldlM step ts = .ok ts' →
      (∀ t ∈ as.flatMap out, t.Valid) ∧ ts' = ts ++ as.flatMap out
  | [], ts, ts', h => by
      cases h
      exact ⟨nofun, (List.append_nil ts).symm⟩
  | a :: as, ts, ts', h => by
      rw [List.foldlM_cons] at h
      obtain ⟨mid, hmid, h⟩ := bind_eq_ok.mp h
      obtain ⟨hvalid, rfl⟩ := hstep _ _ _ hmid
      obtain ⟨hrest, rfl⟩ := foldlM_append hstep h
      refine ⟨fun t ht => ?_, by rw [List.flatMap_cons, List.append_assoc]⟩
      rw [List.flatMap_cons] at ht
      rcases List.mem_append.mp ht with ht | ht
      · exact hvalid t ht
      · exact hrest t ht

theorem emitLayer_ok {qt l : Nat} {w : Weights F} {ts ts' : List Tensor}
    (h : emitLayer np qt w ts l = .ok ts') :
    (∀ t ∈ TqLayerSlot.all.map (layerTensor np qt w l), t.Valid) ∧
      ts' = ts ++ TqLayerSlot.all.map (layerTensor np qt w l) := by
  unfold emitLayer at h
  obtain ⟨ts₁, h₁, h⟩ := bind_eq_ok.mp h
  obtain ⟨ts₂, h₂, h⟩ := bind_eq_ok.mp h
  obtain ⟨hatt, rfl⟩ := emitF32_ok np h₁
  obtain ⟨hffn, rfl⟩ := emitF32_ok np h₂
  have hmats : ∀ ts s ts', emit np ts (layerName l s) (w.layers l s) qt = .ok ts' →
      (∀ t ∈ [quantized np qt (layerName l s) (w.layers l s)], t.Valid) ∧
        ts' = ts ++ [quantized np qt (layerName l s) (w.layers l s)] := by
    intro ts s ts' hs
    obtain ⟨hvalid, rfl⟩ := emit_ok np hs
    exact ⟨fun t ht => List.mem_singleton.mp ht ▸ hvalid, rfl⟩
  obtain ⟨hrest, rfl⟩ := foldlM_append hmats h
  refine ⟨fun t ht => ?_, by simp [TqLayerSlot.all, layerTensor]⟩
  rcases List.mem_cons.mp ht with rfl | ht
  · exact hatt
  · rcases List.mem_cons.mp ht with rfl | ht
    · exact hffn
    · exact hrest t ht

/-- The tensors of a tokenizer. -/
def tokTensors : Option (List (List UInt8) × NdArray F) → List Tensor
  | none => []
  | some (pieces, scores) =>
      [⟨ascii "tok.scores", tqDtF32, [pieces.length], tobytes np scores⟩,
       ⟨ascii "tok.offs", tqDtU32, [pieces.length + 1], (cumsum pieces).flatMap (toLE 4)⟩,
       ⟨ascii "tok.blob", tqDtU8, [pieces.flatten.length], pieces.flatten⟩,
       ⟨ascii "tok.sorted", tqDtU32, [pieces.length], (buildSorted pieces).flatMap (toLE 4)⟩]

theorem addTokenizer_ok {ts ts' : List Tensor} {pieces : List (List UInt8)} {scores : NdArray F}
    (h : addTokenizer np ts pieces scores = .ok ts') :
    (∀ t ∈ tokTensors np (some (pieces, scores)), t.Valid) ∧
      ts' = ts ++ tokTensors np (some (pieces, scores)) := by
  unfold addTokenizer at h
  obtain ⟨ts₁, h₁, h⟩ := bind_eq_ok.mp h
  obtain ⟨ts₂, h₂, h⟩ := bind_eq_ok.mp h
  obtain ⟨ts₃, h₃, h⟩ := bind_eq_ok.mp h
  obtain ⟨hscores, rfl⟩ := add_ok.mp h₁
  obtain ⟨hoffs, rfl⟩ := add_ok.mp h₂
  obtain ⟨hblob, rfl⟩ := add_ok.mp h₃
  obtain ⟨hsorted, rfl⟩ := add_ok.mp h
  refine ⟨fun t ht => ?_, by simp [tokTensors]⟩
  simp only [tokTensors, List.mem_cons, List.not_mem_nil, or_false] at ht
  rcases ht with rfl | rfl | rfl | rfl
  · exact hscores
  · exact hoffs
  · exact hblob
  · exact hsorted

section Model
variable {R : Type} (c : Config R) (w : Weights F) (tok : Option (List (List UInt8) × NdArray F))

/-- The classifier, when it is not shared. -/
def clsTensors : List Tensor :=
  if c.sharedClassifier =
    0 then (w.cls.map fun cls => quantized np c.qtype (ascii "cls") cls).toList
  else []

theorem emitCls_ok {ts ts' : List Tensor} (h : emitCls np c w ts = .ok ts') :
    (c.sharedClassifier = 0 → w.cls.isSome) ∧ (∀ t ∈ clsTensors np c w, t.Valid) ∧
      ts' = ts ++ clsTensors np c w := by
  unfold emitCls at h
  unfold clsTensors
  split at h
  · next hown =>
      rw [if_pos hown]
      cases hcls : w.cls with
      | none =>
          rw [hcls] at h
          cases h
      | some cls =>
          rw [hcls] at h
          obtain ⟨hvalid, rfl⟩ := emit_ok np h
          exact ⟨fun _ => rfl, fun t ht => List.mem_singleton.mp ht ▸ hvalid, rfl⟩
  · next hshared =>
      rw [if_neg hshared]
      cases h
      exact ⟨fun h => absurd h hshared, nofun, (List.append_nil ts).symm⟩

/-- The global tensors of the model proper. -/
def globalTensors : List Tensor :=
  [quantized np c.qtype (ascii "tok_emb") w.tokEmb, plain np (ascii "rms_final") w.rmsFinal] ++
    clsTensors np c w

/-- The tensors of all layers. -/
def layerTensors : List Tensor :=
  (List.range c.nLayers).flatMap fun l => TqLayerSlot.all.map (layerTensor np c.qtype w l)

/-- **The tensors** that `write_model` adds. -/
theorem modelTensors_ok {ts : List Tensor} (h : modelTensors np c w tok = .ok ts) :
    (c.sharedClassifier = 0 → w.cls.isSome) ∧ (∀ t ∈ ts, t.Valid) ∧
      ts = globalTensors np c w ++ layerTensors np c w ++ tokTensors np tok := by
  unfold modelTensors at h
  obtain ⟨ts₁, h₁, h⟩ := bind_eq_ok.mp h
  obtain ⟨ts₂, h₂, h⟩ := bind_eq_ok.mp h
  obtain ⟨ts₃, h₃, h⟩ := bind_eq_ok.mp h
  obtain ⟨ts₄, h₄, h⟩ := bind_eq_ok.mp h
  obtain ⟨hemb, rfl⟩ := emit_ok np h₁
  obtain ⟨hfinal, rfl⟩ := emitF32_ok np h₂
  obtain ⟨hsome, hcls, rfl⟩ := emitCls_ok np c w h₃
  obtain ⟨hlayers, rfl⟩ := foldlM_append
    (fun _ l _ hl => @emitLayer_ok F np c.qtype l w _ _ hl) h₄
  have htok : (∀ t ∈ tokTensors np tok, t.Valid) ∧
      ts = [quantized np c.qtype (ascii "tok_emb") w.tokEmb] ++
      [plain np (ascii "rms_final") w.rmsFinal] ++ clsTensors np c w ++ layerTensors np c w ++
        tokTensors np tok := by
    cases tok with
    | none =>
        cases h
        exact ⟨nofun, (List.append_nil _).symm⟩
    | some p => exact addTokenizer_ok np h
  obtain ⟨htok, rfl⟩ := htok
  refine ⟨hsome, fun t ht => ?_, rfl⟩
  simp only [List.mem_append, List.mem_singleton] at ht
  rcases ht with (((rfl | rfl) | ht) | ht) | ht
  · exact hemb
  · exact hfinal
  · exact hcls t ht
  · exact hlayers t ht
  · exact htok t ht

end Model

end Emit

end TinyLlm.Etq
