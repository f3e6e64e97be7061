/-
# `TinyLlm.Model.Bounds` — are the tensors of an accepted file in the file?

`tq_model_open` checks `offset + nbytes` of every directory entry, in 64-bit
arithmetic and with the size that the entry declares, and the shape apart from
it.  What is read later is the payload that dtype and shape imply.  An entry
that declares less than that, or whose sum wraps, passes the check wherever it
starts; an honest entry is one for which the check is enough, whatever the size
of the file (`TqTensorEntry.honest_iff`).  So the tensors are in bounds when
each entry that fills a slot is honest (`tqModelOpen_inBounds`).
-/
import TinyLlm.Model.Image
import TinyLlm.Model.Streaming

namespace TinyLlm

open Bytes Relational

/-! ## Payloads -/

/-- `tq_dtype_nbytes`, computed without wrapping. -/
def payloadBytes (dtype n : Nat) : Nat :=
  if dtype = tqDtF32 ∨ dtype = tqDtU32 then n * 4
  else if dtype = tqDtU8 then n
  else if dtype = tqDtQ80 then if n % tqGroupSize ≠ 0 then 0 else n / tqGroupSize * 34
  else if dtype = tqDtQ40 then if n % tqGroupSize ≠ 0 then 0 else n / tqGroupSize * 18
  else 0

/-- A payload below 2^64 bytes has the size that the C computes. -/
theorem tqDtypeNbytes_eq {dtype n : Nat} (h : payloadBytes dtype n < 2 ^ 64) :
    tqDtypeNbytes dtype n = payloadBytes dtype n := by
  unfold payloadBytes tqDtypeNbytes at *
  split_ifs at h ⊢
  · exact Nat.mod_eq_of_lt h
  · rfl
  · rfl
  · exact Nat.mod_eq_of_lt h
  · rfl
  · exact Nat.mod_eq_of_lt h
  · rfl

namespace TqTensorEntry

/-- The product of the shape. -/
def count (e : TqTensorEntry) : Nat := ([e.shape0, e.shape1, e.shape2, e.shape3].take e.ndim).prod

/-- The payload that dtype and shape imply. -/
def payload (e : TqTensorEntry) : Nat := payloadBytes e.dtype e.count

/-- The entry declares its payload, and the sum that is checked does not wrap. -/
structure Honest (e : TqTensorEntry) : Prop where
  declared : e.payload ≤ e.nbytes
  noWrap : e.offset + e.nbytes < 2 ^ 64

/-- There is room for the payload behind the offset. -/
def Roomy (e : TqTensorEntry) (bytes : Nat) : Prop := e.offset + e.payload ≤ bytes

/-- What the bounds check says of an honest entry. -/
theorem Honest.roomy {e : TqTensorEntry} (h : e.Honest) {fileBytes bytes : Nat}
    (hin : e.InFile fileBytes) (hle : fileBytes ≤ bytes) : e.Roomy bytes := by
  have hcheck := hin.1
  rw [Nat.mod_eq_of_lt h.noWrap] at hcheck
  have := h.declared
  unfold Roomy
  omega

/-- **What honesty is for**: the bounds check keeps the payload of an entry in
files of every size if and only if the entry is honest. -/
theorem honest_iff {e : TqTensorEntry} (hoff : e.offset < 2 ^ 64) (hnbytes : e.nbytes < 2 ^ 64)
    (halign : e.offset % tqAlign = 0) : e.Honest ↔ ∀ bytes, e.InFile bytes → e.Roomy bytes := by
  constructor
  · intro h bytes hin
    exact h.roomy hin (Nat.le_refl bytes)
  · intro h
    -- the smallest file that the entry passes in
    have hroomy : e.offset + e.payload ≤ (e.offset + e.nbytes) % 2 ^ 64 :=
      h _ ⟨Nat.le_refl _, halign⟩
    have hwrap : e.offset + e.nbytes < 2 ^ 64 := by
      by_contra hge
      rw [Nat.mod_eq_sub_mod (Nat.not_lt.mp hge), Nat.mod_eq_of_lt (by omega)] at hroomy
      omega
    rw [Nat.mod_eq_of_lt hwrap] at hroomy
    exact ⟨Nat.le_of_add_le_add_left hroomy, hwrap⟩

end TqTensorEntry

/-! ## Slots -/

/-- The global tensors a model keeps the offset of, the tokenizer's bytes apart. -/
def slotNames (hdr : TqHeader) : List (List UInt8) :=
  [ascii "tok_emb", ascii "rms_final", ascii "tok.scores", ascii "tok.offs", ascii "tok.sorted"] ++
    if hdr.sharedClassifier = 0 then [ascii "cls"] else []

/-- The names that every model looks for. -/
theorem fixed_mem_slotNames (hdr : TqHeader) :
    ascii "tok_emb" ∈ slotNames hdr ∧ ascii "rms_final" ∈ slotNames hdr ∧
      ascii "tok.scores" ∈ slotNames hdr ∧ ascii "tok.offs" ∈ slotNames hdr ∧
      ascii "tok.sorted" ∈ slotNames hdr := by
  refine ⟨?_, ?_, ?_, ?_, ?_⟩ <;> exact List.mem_append_left _ (by decide)

theorem cls_mem_slotNames {hdr : TqHeader} :
    ascii "cls" ∈ slotNames hdr ↔ hdr.sharedClassifier = 0 := by
  unfold slotNames
  split
  · next h => exact ⟨fun _ => h, fun _ => by decide⟩
  · next h => exact ⟨fun hmem => absurd hmem (by decide), fun heq => absurd heq h⟩

theorem blob_not_mem_slotNames {hdr : TqHeader} : ascii "tok.blob" ∉ slotNames hdr := by
  unfold slotNames
  split <;> decide

/-- The first entry of a name. -/
def firstEntry (image : List UInt8) (name : List UInt8) : Option TqTensorEntry :=
  (directory image).find? fun e => tqNameEq e.name name

/-- The last entry of a layer tensor. -/
def lastEntry (image : List UInt8) (l : Nat) (s : TqLayerSlot) : Option TqTensorEntry :=
  (directory image).reverse.find? fun e => e.spells = some (l, s)

/-- The entries whose offsets an accepted model keeps: the first of each global
name, the last of each layer tensor. -/
inductive Fills (image : List UInt8) : TqTensorEntry → Prop
  | global {name : List UInt8} {e : TqTensorEntry} : name ∈ slotNames (TqHeader.decode image) →
      firstEntry image name = some e → Fills image e
  | layer {l : Nat} {s : TqLayerSlot} {e : TqTensorEntry} : l < (imageDims image).nLayers →
      lastEntry image l s = some e → Fills image e

/-- The payload of a layer tensor. -/
def TqLayerSlot.payload (m : TqModel) (s : TqLayerSlot) : Nat :=
  payloadBytes (s.dtype m) (if s.cols m = 0 then s.rows m else s.rows m * s.cols m)

/-- **Every tensor is in bounds**: the payload that its dtype and shape imply
ends within `bytes`. -/
structure SlotsInBounds (image : List UInt8) (bytes : Nat) (m : TqModel) : Prop where
  tokEmb : m.tokEmb + payloadBytes m.qtype (m.vocabSize * m.dim) ≤ bytes
  rmsFinal : m.rmsFinal + payloadBytes tqDtF32 m.dim ≤ bytes
  classifier : m.classifier + payloadBytes m.qtype (m.vocabSize * m.dim) ≤ bytes
  layers : ∀ l < m.nLayers, ∀ s : TqLayerSlot, m.layers l s + s.payload m ≤ bytes
  tokScores : (firstEntry image (ascii "tok.scores")).isSome →
    m.tokScores + payloadBytes tqDtF32 m.vocabSize ≤ bytes
  tokOffs : (firstEntry image (ascii "tok.offs")).isSome →
    m.tokOffs + payloadBytes tqDtU32 (m.vocabSize + 1) ≤ bytes
  tokSorted : (firstEntry image (ascii "tok.sorted")).isSome →
    m.tokSorted + payloadBytes tqDtU32 m.vocabSize ≤ bytes

/-- What a want asks for. -/
def TqWant.need (w : TqWant) : Nat :=
  payloadBytes w.dtype (if w.cols = 0 then w.rows else w.rows * w.cols)

theorem TqTensorEntry.Fits.payload_eq {e : TqTensorEntry} {w : TqWant} (h : e.Fits w)
    (hrows : w.rows ≠ 0) : e.payload = w.need := by
  obtain ⟨hdtype, hshape⟩ := h
  unfold TqTensorEntry.payload TqWant.need TqTensorEntry.count
  rw [hdtype]
  unfold TqWant.shapeOk at hshape
  by_cases hcols : w.cols = 0
  · rw [if_neg (not_not.mpr hcols), if_pos hrows, decide_eq_true_eq] at hshape
    rw [if_pos hcols, hshape.1, hshape.2]
    simp
  · rw [if_pos hcols, decide_eq_true_eq] at hshape
    rw [if_neg hcols, hshape.1, hshape.2.1, hshape.2.2]
    simp

theorem TqTensorEntry.FitsSlot.payload_eq {e : TqTensorEntry} {m : TqModel} {s : TqLayerSlot}
    (h : e.FitsSlot m s) : e.payload = s.payload m := by
  obtain ⟨hdtype, hrows, hshape⟩ := h
  unfold TqTensorEntry.payload TqLayerSlot.payload TqTensorEntry.count
  rw [hdtype, hrows]
  by_cases hcols : s.cols m = 0
  · rw [if_neg (not_not.mpr hcols)] at hshape
    rw [if_pos hcols, hshape]
    simp
  · rw [if_pos hcols] at hshape
    rw [if_neg hcols, hshape.1, hshape.2]
    simp

/-! ## The entries of an accepted image -/

section Accepted

variable {image : List UInt8} {bytes : UInt64} {arena : TqArena} {m : TqModel}

/-- The first entry of a global name passed its checks. -/
theorem Accepted.firstEntry (h : Accepted image bytes arena m) {w : TqWant}
    (hw : w ∈ tqWants (imageDims image)) {e : TqTensorEntry}
    (he : firstEntry image w.name = some e) :
    e.InFile (TqHeader.decode image).fileBytes ∧ e.Fits w ∧
      (w.settle (directory image)).offset = e.offset := by
  have hsettle : w.settle (directory image) = w.take e := by
    unfold TqWant.settle
    unfold TinyLlm.firstEntry at he
    rw [he]
    rfl
  obtain ⟨hname, pre, post, hdir, hpre⟩ := List.find?_eq_some_iff_append.mp he
  have hadm := h.admissible pre e post hdir
  exact ⟨hadm.inFile, hadm.global w hw hname fun d hd => by simpa using hpre d hd, by
    rw [hsettle]; rfl⟩

/-- The last entry of a layer tensor passed its checks. -/
theorem Accepted.lastEntry (h : Accepted image bytes arena m) {l : Nat} {s : TqLayerSlot}
    (hl : l < (imageDims image).nLayers) {e : TqTensorEntry} (he : lastEntry image l s = some e) :
    e.InFile (TqHeader.decode image).fileBytes ∧ e.FitsSlot (imageDims image) s ∧
      layersAfter (directory image) (imageDims image).nLayers l s = e.offset := by
  have hoff : layersAfter (directory image) (imageDims image).nLayers l s = e.offset := by
    unfold layersAfter
    unfold TinyLlm.lastEntry at he
    rw [if_pos hl, he]
    rfl
  have hmem : e ∈ directory image := List.mem_reverse.mp (List.mem_of_find?_eq_some he)
  have hspells : e.spells = some (l, s) := by simpa using List.find?_some he
  obtain ⟨pre, post, hdir⟩ := List.append_of_mem hmem
  have hadm := h.admissible pre e post hdir
  exact ⟨hadm.inFile, hadm.layer l s hspells hl, hoff⟩

/-- A required global tensor has an entry. -/
theorem Accepted.required (h : Accepted image bytes arena m) {w : TqWant}
    (hw : w ∈ tqWants (imageDims image)) (hreq : w.required = true) :
    ∃ e, TinyLlm.firstEntry image w.name = some e := by
  have hfound := h.found
  unfold tqCheckFound at hfound
  split at hfound
  · cases hfound
  · next hany =>
      rw [List.any_eq_true] at hany
      have hmem : w.settle (directory image) ∈ (imageWalk image).wants := List.mem_map_of_mem hw
      have hset : (w.settle (directory image)).found = true := by
        by_contra hno
        exact hany ⟨_, hmem, by simp [hno, settle_required, hreq]⟩
      have hnew := (tqWants_fresh (imageDims image)).new w hw
      obtain ⟨d, hd, hname⟩ := (settle_found hnew).mp hset
      exact Option.isSome_iff_exists.mp (List.find?_isSome.mpr ⟨d, hd, hname⟩)

/-- Every layer tensor has an entry. -/
theorem Accepted.layerEntry (h : Accepted image bytes arena m) {l : Nat}
    (hl : l < (imageDims image).nLayers) (s : TqLayerSlot) :
    ∃ e, TinyLlm.lastEntry image l s = some e := by
  have hfound := h.found
  unfold tqCheckFound at hfound
  split at hfound
  · cases hfound
  · split at hfound
    · cases hfound
    · next hany =>
        rw [List.any_eq_true] at hany
        have hne : layersAfter (directory image) (imageDims image).nLayers l s ≠ 0 := by
          intro hzero
          refine hany ⟨l, List.mem_range.mpr hl, List.any_eq_true.mpr ⟨s, s.mem_all, ?_⟩⟩
          exact decide_eq_true hzero
        unfold layersAfter at hne
        rw [if_pos hl] at hne
        cases he : (directory image).reverse.find? fun e => e.spells = some (l, s) with
        | none =>
            rw [he] at hne
            exact absurd rfl hne
        | some e => exact ⟨e, he⟩

/-! ## Slot by slot -/

/-- A global slot is in bounds if the entry that fills it has room. -/
theorem Accepted.global_iff (h : Accepted image bytes arena m) {i : Nat} {w : TqWant}
    (hw : (tqWants (imageDims image))[i]? = some w) (hrows : w.rows ≠ 0) {e : TqTensorEntry}
    (he : TinyLlm.firstEntry image w.name = some e) (b : Nat) :
    (imageWalk image).offsetOf i + w.need ≤ b ↔ e.Roomy b := by
  obtain ⟨-, hfits, hoff⟩ := h.firstEntry (List.mem_of_getElem? hw) he
  have hslot : (imageWalk image).offsetOf i = e.offset := by
    rw [← hoff]
    unfold TqWalk.offsetOf imageWalk
    rw [List.getElem?_map, hw]
    rfl
  rw [hslot, ← hfits.payload_eq hrows]
  rfl

/-- An entry that fills a slot and is honest or roomy is roomy. -/
theorem Accepted.roomy (h : Accepted image bytes arena m) {e : TqTensorEntry} (he : Fills image e)
    (hcond : e.Honest ∨ e.Roomy bytes.toNat) : e.Roomy bytes.toNat := by
  rcases hcond with hhonest | hroomy
  · cases he with
    | global hname hfirst =>
        obtain ⟨-, pre, post, hdir, -⟩ := List.find?_eq_some_iff_append.mp hfirst
        exact hhonest.roomy (h.admissible pre e post hdir).inFile h.checked.fileBytes
    | layer hl hlast => exact hhonest.roomy (h.lastEntry hl hlast).1 h.checked.fileBytes
  · exact hroomy

/-- **Slots and wants**: the slots of an accepted model are the wants that have
an entry and the tensors of the layers. -/
theorem Accepted.inBounds_iff (h : Accepted image bytes arena m) (b : Nat) :
    SlotsInBounds image b m ↔
      (∀ i w, (tqWants (imageDims image))[i]? = some w →
      w.name ∈ slotNames (TqHeader.decode image) →
        (TinyLlm.firstEntry image w.name).isSome → (imageWalk image).offsetOf i + w.need ≤ b) ∧
      ∀ l < (imageDims image).nLayers, ∀ s : TqLayerSlot,
        layersAfter (directory image) (imageDims image).nLayers l s + s.payload (imageDims image) ≤
        b := by
  have hdim : (imageDims image).dim ≠ 0 := (tqModelDims_sized h.checked).dim_pos.ne'
  have hmat : (if (imageDims image).dim = 0 then (imageDims image).vocabSize
      else (imageDims image).vocabSize * (imageDims image).dim) =
        (imageDims image).vocabSize * (imageDims image).dim := if_neg hdim
  have hsome : ∀ w ∈ tqWants (imageDims image), w.required = true →
      (TinyLlm.firstEntry image w.name).isSome := by
    intro w hw hreq
    obtain ⟨e, he⟩ := h.required hw hreq
    exact Option.isSome_iff_exists.mpr ⟨e, he⟩
  obtain ⟨hembName, hfinalName, hscoresName, hoffsName, hsortedName⟩ :=
    fixed_mem_slotNames (TqHeader.decode image)
  obtain rfl := h.model
  constructor
  · intro hs
    refine ⟨fun i w hw hname hfirst => ?_, fun l hl s => ?_⟩
    · rcases i with _ | _ | _ | _ | _ | _ | _ | i
      · cases hw
        unfold TqWant.need
        rw [hmat]
        exact hs.tokEmb
      · cases hw
        exact hs.rmsFinal
      · cases hw
        have hown : (imageDims image).hdr.sharedClassifier = 0 := cls_mem_slotNames.mp hname
        have hcls := hs.classifier
        unfold TqWant.need
        rw [hmat]
        unfold tqResolve at hcls
        dsimp only at hcls
        rwa [if_neg (not_not.mpr hown)] at hcls
      · cases hw
        exact hs.tokScores hfirst
      · cases hw
        exact hs.tokOffs hfirst
      · cases hw
        exact absurd hname blob_not_mem_slotNames
      · cases hw
        exact hs.tokSorted hfirst
      · cases hw
    · cases s <;> exact hs.layers l hl _
  · rintro ⟨hwants, hlayers⟩
    have hemb : (imageWalk image).offsetOf 0 + payloadBytes (imageDims image).qtype
        ((imageDims image).vocabSize * (imageDims image).dim) ≤ b := by
      rw [← hmat]
      exact hwants 0 _ rfl hembName (hsome _ (List.mem_of_getElem? (i := 0) rfl) rfl)
    refine ⟨hemb, ?_, ?_, ?_, ?_, ?_, ?_⟩
    · exact hwants 1 _ rfl hfinalName (hsome _ (List.mem_of_getElem? (i := 1) rfl) rfl)
    · unfold tqResolve
      dsimp only
      by_cases hshared : (imageDims image).hdr.sharedClassifier = 0
      · rw [if_neg (not_not.mpr hshared), ← hmat]
        exact hwants 2 _ rfl (cls_mem_slotNames.mpr hshared)
          (hsome _ (List.mem_of_getElem? (i := 2) rfl) (decide_eq_true hshared))
      · rw [if_pos hshared]
        exact hemb
    · intro l hl s
      cases s <;> exact hlayers l hl _
    · exact fun hfirst => hwants 3 _ rfl hscoresName hfirst
    · exact fun hfirst => hwants 4 _ rfl hoffsName hfirst
    · exact fun hfirst => hwants 6 _ rfl hsortedName hfirst

/-- The wants of slots have rows, and every slot name has a want. -/
theorem Accepted.wants_rows (h : Accepted image bytes arena m) {i : Nat} {w : TqWant}
    (hw : (tqWants (imageDims image))[i]? = some w)
    (hname : w.name ∈ slotNames (TqHeader.decode image)) : w.rows ≠ 0 := by
  have hsized := tqModelDims_sized h.checked
  rcases i with _ | _ | _ | _ | _ | _ | _ | i
  · cases hw
    exact hsized.vocabSize_pos.ne'
  · cases hw
    exact hsized.dim_pos.ne'
  · cases hw
    exact hsized.vocabSize_pos.ne'
  · cases hw
    exact hsized.vocabSize_pos.ne'
  · cases hw
    exact Nat.succ_ne_zero _
  · cases hw
    exact absurd hname blob_not_mem_slotNames
  · cases hw
    exact hsized.vocabSize_pos.ne'
  · cases hw

theorem exists_want {name : List UInt8} (hname : name ∈ slotNames (TqHeader.decode image)) :
    ∃ (i : Nat) (w : TqWant), (tqWants (imageDims image))[i]? = some w ∧ w.name = name := by
  rcases List.mem_append.mp hname with hname | hname
  · simp only [List.mem_cons, List.not_mem_nil, or_false] at hname
    rcases hname with rfl | rfl | rfl | rfl | rfl
    · exact ⟨0, _, rfl, rfl⟩
    · exact ⟨1, _, rfl, rfl⟩
    · exact ⟨3, _, rfl, rfl⟩
    · exact ⟨4, _, rfl, rfl⟩
    · exact ⟨6, _, rfl, rfl⟩
  · split at hname
    · obtain rfl := List.mem_singleton.mp hname
      exact ⟨2, _, rfl, rfl⟩
    · cases hname

/-- **The tensors of an accepted image** are in bounds if and only if every
entry that fills a slot is honest, or has the room nevertheless. -/
theorem Accepted.inBounds (h : Accepted image bytes arena m) :
    SlotsInBounds image bytes.toNat m ↔
      ∀ e, Fills image e → e.Honest ∨ e.Roomy bytes.toNat := by
  rw [h.inBounds_iff]
  constructor
  · rintro ⟨hwants, hlayers⟩ e he
    right
    cases he with
    | @global name e hname hfirst =>
        obtain ⟨i, w, hw, rfl⟩ := exists_want hname
        refine (h.global_iff hw (h.wants_rows hw hname) hfirst _).mp ?_
        exact hwants i w hw hname (Option.isSome_iff_exists.mpr ⟨e, hfirst⟩)
    | @layer l s e hl hlast =>
        obtain ⟨-, hfits, hoff⟩ := h.lastEntry hl hlast
        have hbound := hlayers l hl s
        rw [hoff, ← hfits.payload_eq] at hbound
        exact hbound
  · intro hcond
    constructor
    · intro i w hw hname hfirst
      obtain ⟨e, he⟩ := Option.isSome_iff_exists.mp hfirst
      have hfills := Fills.global hname he
      exact (h.global_iff hw (h.wants_rows hw hname) he _).mpr (h.roomy hfills (hcond e hfills))
    · intro l hl s
      obtain ⟨e, he⟩ := h.layerEntry hl s
      obtain ⟨-, hfits, hoff⟩ := h.lastEntry hl he
      have hfills := Fills.layer hl he
      rw [hoff, ← hfits.payload_eq]
      exact h.roomy hfills (hcond e hfills)

end Accepted

/-! ## Opening -/

/-- A store of `bytes` bytes over an image: mapped, or behind a callback. -/
inductive StoreOver (image : List UInt8) (bytes : UInt64) : TqStore → Prop
  | mapped : StoreOver image bytes (tqStoreInitMapped image bytes)
  | stream {read : Nat → Nat → Option (List UInt8)} {tileBytes : UInt32} : ServesImage image read →
      StoreOver image bytes (tqStoreInitStream bytes read tileBytes)

/-- What either store opens is an accepted model. -/
theorem StoreOver.accepted {image : List UInt8} {bytes : UInt64} {st : TqStore}
    (hst : StoreOver image bytes st) {arena : TqArena} {t t' : TqTile} {m : TqModel}
    (h : (tqModelOpen st arena).exec t = (.ok m, t')) : Accepted image bytes arena m := by
  cases hst with
  | mapped => exact (tqModelOpen_mapped.mp h).1
  | stream hread =>
      obtain ⟨m', u, hmapped, rfl, -⟩ :=
        (tqModelOpen_mirror hread arena).of_ok (t := t) trivial (congrArg Prod.fst h)
      exact (tqModelOpen_mapped.mp hmapped).1

/-- **Accepted files and their bounds**: the tensors that `tq_model_open`
resolved lie within the store if each entry that fills a slot is honest. -/
theorem tqModelOpen_inBounds {image : List UInt8} {bytes : UInt64} {st : TqStore}
    (hst : StoreOver image bytes st) {arena : TqArena} {t t' : TqTile} {m : TqModel}
    (h : (tqModelOpen st arena).exec t = (.ok m, t'))
    (hhonest : ∀ e, Fills image e → e.Honest) : SlotsInBounds image bytes.toNat m :=
  (hst.accepted h).inBounds.mpr fun e he => .inl (hhonest e he)

/-- A filled slot is one of the directory. -/
theorem Fills.mem {image : List UInt8} {e : TqTensorEntry} (h : Fills image e) :
    e ∈ directory image := by
  cases h with
  | global _ he => exact List.mem_of_find?_eq_some he
  | layer _ he => exact List.mem_reverse.mp (List.mem_of_find?_eq_some he)

/-- A directory whose entries all declare the bytes of the largest tensor. -/
theorem tqModelOpen_inBounds_sample :
    ∃ m t', (tqModelOpen (tqStoreInitMapped (sampleImage 60 4 1080 1080) 2040)
        ⟨0, 1000, 2 ^ 64⟩).exec ⟨0, []⟩ = (.ok m, t') ∧
      SlotsInBounds (sampleImage 60 4 1080 1080) 2040 m := by
  have hdesc : Describes (sampleHeader 60 4 2040) (sampleEntries 60 1080) :=
    sample_describes (by decide) (by decide) (by decide) (by decide)
  obtain ⟨m, hres⟩ : ∃ m, (tqModelOpen (tqStoreInitMapped (sampleImage 60 4 1080 1080) 2040)
      ⟨0, 1000, 2 ^ 64⟩).exec ⟨0, []⟩ = (.ok m, ⟨0, []⟩) :=
    open_image hdesc (by decide) (by decide) (by decide) (by decide +kernel) ⟨0, []⟩
  have hdeclared : ∀ e ∈ sampleEntries 60 1080,
      e.payload ≤ e.nbytes ∧ e.offset + e.nbytes < 2 ^ 64 := by decide
  refine ⟨m, _, hres, tqModelOpen_inBounds .mapped hres fun e he => ?_⟩
  have hmem := he.mem
  rw [sampleImage, directory_image hdesc] at hmem
  obtain ⟨hpay, hwrap⟩ := hdeclared e hmem
  exact ⟨hpay, hwrap⟩

/-- The same tensors, declared to have no bytes: with nothing behind the
directory the file opens all the same. -/
theorem tqModelOpen_overruns :
    ¬ ∀ (image : List UInt8) (bytes : UInt64) (arena : TqArena) (t t' : TqTile) (m : TqModel),
      (tqModelOpen (tqStoreInitMapped image bytes) arena).exec t = (.ok m, t') →
        SlotsInBounds image bytes.toNat m := by
  intro hall
  have hdesc : Describes (sampleHeader 60 4 960) (sampleEntries 60 0) :=
    sample_describes (by decide) (by decide) (by decide) (by decide)
  obtain ⟨m, hres⟩ := bareSample_opens
  have hemb := (hall _ _ _ _ _ _ hres).tokEmb
  rw [(tqModelOpen_mapped.mp hres).1.model, sampleImage, imageWalk_image hdesc, imageDims,
    decode_image hdesc] at hemb
  revert hemb
  decide +kernel

end TinyLlm
