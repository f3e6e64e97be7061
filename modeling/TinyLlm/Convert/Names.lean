/-
# `TinyLlm.Convert.Names` — which entry fills which slot

A layer tensor is named `lNNN.` and a suffix.  The engine subtracts the
character `0` from each of the three bytes and asks for no digit, so other
bytes spell a number as well.  The slots of an accepted model hold the offsets
of entries with exactly the documented names if and only if the entries that
fill the layers' slots write their numbers in digits (`tqModelOpen_exact`).
-/
import TinyLlm.Convert.Accepted
import TinyLlm.Model.Bounds

namespace TinyLlm

open Bytes

/-! ## The documented tensors -/

/-- The dtypes of the table of tensor names. -/
def documentedDtype (m : TqModel) : TqLayerSlot → Nat
  | .rmsAtt | .rmsFfn => tqDtF32
  | _ => m.qtype

/-- The shapes of the table of tensor names. -/
def documentedShape (m : TqModel) : TqLayerSlot → List Nat
  | .rmsAtt | .rmsFfn => [m.dim]
  | .wq | .wo => [m.dim, m.dim]
  | .wk | .wv => [m.kvDim, m.dim]
  | .w1 | .w3 => [m.hiddenDim, m.dim]
  | .w2 => [m.dim, m.hiddenDim]

namespace TqTensorEntry

def HasShape (e : TqTensorEntry) (shape : List Nat) : Prop :=
  e.ndim = shape.length ∧ [e.shape0, e.shape1, e.shape2, e.shape3].take e.ndim = shape

/-- The name is `l`, the three digits of the layer, a dot and the suffix. -/
def IsNamed (e : TqTensorEntry) (l : Nat) (s : TqLayerSlot) : Prop :=
  l < 1000 ∧ cstr e.name = Etq.layerName l s

/-- The three bytes of the layer number are digits. -/
def InDigits (e : TqTensorEntry) : Prop :=
  ∀ i ∈ [1, 2, 3], 48 ≤ (e.name.getD i 0).toNat ∧ (e.name.getD i 0).toNat ≤ 57

end TqTensorEntry

/-- An offset is that of an entry of this name, dtype and shape. -/
def Holds (image : List UInt8) (off : Nat) (name : List UInt8) (dtype : Nat)
    (shape : List Nat) : Prop :=
  ∃ e ∈ directory image, cstr e.name = name ∧ e.dtype = dtype ∧ e.HasShape shape ∧ off = e.offset

/-- **Exact resolution**: every slot has the offset of an entry with exactly
its name, and no other entry fills a slot.  The tokenizer's may be empty. -/
structure SlotsExact (image : List UInt8) (m : TqModel) : Prop where
  layers : ∀ l < m.nLayers, ∀ s, ∃ e ∈ directory image, e.IsNamed l s ∧
    e.dtype = documentedDtype m s ∧
    e.HasShape (documentedShape m s) ∧ m.layers l s = e.offset
  tokEmb : Holds image m.tokEmb (ascii "tok_emb") m.qtype [m.vocabSize, m.dim]
  rmsFinal : Holds image m.rmsFinal (ascii "rms_final") tqDtF32 [m.dim]
  classifier : m.hdr.sharedClassifier = 0 →
    Holds image m.classifier (ascii "cls") m.qtype [m.vocabSize, m.dim]
  shared : m.hdr.sharedClassifier ≠ 0 → m.classifier = m.tokEmb
  tokScores : m.tokScores ≠ 0 → Holds image m.tokScores (ascii "tok.scores") tqDtF32 [m.vocabSize]
  tokOffs : m.tokOffs ≠ 0 → Holds image m.tokOffs (ascii "tok.offs") tqDtU32 [m.vocabSize + 1]
  tokBlob : m.tokBlob ≠ 0 → ∃ e ∈ directory image, cstr e.name = ascii "tok.blob" ∧
    e.dtype = tqDtU8 ∧
    m.tokBlob = e.offset
  tokSorted : m.tokSorted ≠ 0 → Holds image m.tokSorted (ascii "tok.sorted") tqDtU32 [m.vocabSize]
  only : ∀ e, Fills image e →
    cstr e.name ∈ slotNames (TqHeader.decode image) ∨ ∃ l < m.nLayers, ∃ s, e.IsNamed l s

/-! ## Names and digits -/

/-- A C string starts the field it lies in. -/
theorem getD_cstr {bs w : List UInt8} (h : cstr bs = w) {i : Nat} (hi : i < w.length) :
    bs.getD i 0 = w.getD i 0 := by
  have hsplit : bs = w ++ bs.dropWhile (· ≠ 0) := by
    rw [← h, cstr, List.takeWhile_append_dropWhile]
  rw [hsplit, List.getD_append _ _ _ _ hi]

theorem cstr_cons {c : UInt8} (h : c ≠ 0) (bs : List UInt8) : cstr (c :: bs) = c :: cstr bs :=
  List.takeWhile_cons_of_pos (decide_eq_true h)

/-- The parts of a name that spells a layer tensor. -/
theorem spells_eq_some {e : TqTensorEntry} {l : Nat} {s : TqLayerSlot}
    (h : e.spells = some (l, s)) :
    e.name.getD 0 0 = 108 ∧ e.name.getD 4 0 = 46 ∧ tqLayerNumber e.name = l ∧
      cstr (e.name.drop 5) = s.suffix := by
  unfold TqTensorEntry.spells at h
  split at h
  · cases h
  · next hends =>
      obtain ⟨hfirst, hdot⟩ := not_or.mp hends
      obtain ⟨s', hs', heq⟩ := Option.map_eq_some_iff.mp h
      obtain ⟨hnumber, rfl⟩ := Prod.mk.injEq .. ▸ heq
      have hfound := List.find?_some hs'
      exact ⟨not_not.mp hfirst, not_not.mp hdot, hnumber, of_decide_eq_true hfound⟩

/-- **Digits** spell the layer of the name. -/
theorem isNamed_of_inDigits {e : TqTensorEntry} (hlen : e.name.length = tqNameBytes) {l : Nat}
    {s : TqLayerSlot} (h : e.spells = some (l, s)) (hd : e.InDigits) : e.IsNamed l s := by
  obtain ⟨hfirst, hdot, hnumber, hsuffix⟩ := spells_eq_some h
  have hdigits := hd
  unfold TqTensorEntry.InDigits at hdigits
  simp only [List.forall_mem_cons] at hdigits
  obtain ⟨⟨ha, ha'⟩, ⟨hb, hb'⟩, ⟨hc, hc'⟩, -⟩ := hdigits
  have hname : ∃ a b c rest, e.name = 108 :: a :: b :: c :: 46 :: rest := by
    match hn : e.name with
    | x₀ :: x₁ :: x₂ :: x₃ :: x₄ :: rest =>
        rw [hn] at hfirst hdot
        obtain rfl : x₀ = 108 := hfirst
        obtain rfl : x₄ = 46 := hdot
        exact ⟨x₁, x₂, x₃, rest, rfl⟩
    | [] | [_] | [_, _] | [_, _, _] | [_, _, _, _] =>
        rw [hn] at hlen
        cases hlen
  obtain ⟨a, b, c, rest, hname⟩ := hname
  rw [hname] at ha ha' hb hb' hc hc' hnumber hsuffix
  simp only [List.getD_cons_succ, List.getD_cons_zero] at ha ha' hb hb' hc hc'
  have hl : l = 100 * (a.toNat - 48) + 10 * (b.toNat - 48) + (c.toNat - 48) := by
    rw [← hnumber]
    unfold tqLayerNumber
    simp only [List.getD_cons_succ, List.getD_cons_zero]
    omega
  have hbyte : ∀ (x : UInt8) (n : Nat), x.toNat = n → UInt8.ofNat n = x := by
    rintro x _ rfl
    exact UInt8.ofNat_toNat
  have hzero : ∀ x : UInt8, 48 ≤ x.toNat → x ≠ 0 := by
    rintro x hx rfl
    exact absurd hx (by decide)
  have hl1000 : l < 1000 := by omega
  refine ⟨hl1000, ?_⟩
  rw [hname, Etq.layerName_eq hl1000, cstr_cons (by decide), cstr_cons (hzero a ha),
    cstr_cons (hzero b hb), cstr_cons (hzero c hc), cstr_cons (by decide)]
  rw [hbyte a _ (by omega), hbyte b _ (by omega), hbyte c _ (by omega)]
  exact congrArg (fun t => 108 :: a :: b :: c :: 46 :: t) hsuffix

/-- A name that is exactly that of a layer tensor has digits. -/
theorem inDigits_of_isNamed {e : TqTensorEntry} {l : Nat} {s : TqLayerSlot} (h : e.IsNamed l s) :
    e.InDigits := by
  obtain ⟨hl, hname⟩ := h
  rw [Etq.layerName_eq hl] at hname
  have hdigit : ∀ d < 10, 48 ≤ (UInt8.ofNat (48 + d)).toNat ∧
      (UInt8.ofNat (48 + d)).toNat ≤ 57 := by
    intro d hd
    rw [UInt8.toNat_ofNat_of_lt' (by show _ < 256; omega)]
    omega
  unfold TqTensorEntry.InDigits
  simp only [List.forall_mem_cons]
  have hlong : ∀ i < 5, i < ([108, UInt8.ofNat (48 + l / 100), UInt8.ofNat (48 + l / 10 % 10),
      UInt8.ofNat (48 + l % 10), 46] ++ s.suffix).length := by
    intro i hi
    rw [List.length_append]
    exact Nat.lt_add_right _ hi
  rw [getD_cstr hname (hlong 1 (by decide)), getD_cstr hname (hlong 2 (by decide)),
    getD_cstr hname (hlong 3 (by decide))]
  exact ⟨hdigit _ (by omega), hdigit _ (by omega), hdigit _ (by omega), nofun⟩

/-! ## Shapes -/

theorem TqTensorEntry.FitsSlot.documented {e : TqTensorEntry} {m : TqModel} (hm : m.Sized)
    {s : TqLayerSlot} (h : e.FitsSlot m s) :
    e.dtype = documentedDtype m s ∧ e.HasShape (documentedShape m s) := by
  obtain ⟨hdtype, hrows, hshape⟩ := h
  have hdim := hm.dim_pos.ne'
  have hhidden := hm.hiddenDim_pos.ne'
  have hvector : s.cols m = 0 → documentedShape m s = [s.rows m] →
      e.HasShape (documentedShape m s) := by
    intro hcols hdoc
    rw [if_neg (not_not.mpr hcols)] at hshape
    unfold HasShape
    rw [hdoc, hshape, ← hrows]
    exact ⟨rfl, rfl⟩
  have hmatrix : s.cols m ≠ 0 → documentedShape m s = [s.rows m, s.cols m] →
      e.HasShape (documentedShape m s) := by
    intro hcols hdoc
    rw [if_pos hcols] at hshape
    unfold HasShape
    rw [hdoc, hshape.1, ← hrows, ← hshape.2]
    exact ⟨rfl, rfl⟩
  cases s
  case rmsAtt => exact ⟨hdtype, hvector rfl rfl⟩
  case rmsFfn => exact ⟨hdtype, hvector rfl rfl⟩
  case w2 => exact ⟨hdtype, hmatrix hhidden rfl⟩
  all_goals exact ⟨hdtype, hmatrix hdim rfl⟩

theorem TqTensorEntry.Fits.matrix {e : TqTensorEntry} {w : TqWant} (h : e.Fits w)
    (hcols : w.cols ≠ 0) :
    e.HasShape [w.rows, w.cols] := by
  have hshape := h.2
  unfold TqWant.shapeOk at hshape
  rw [if_pos hcols, decide_eq_true_eq] at hshape
  obtain ⟨hndim, h₀, h₁⟩ := hshape
  unfold HasShape
  rw [hndim, h₀, h₁]
  exact ⟨rfl, rfl⟩

theorem TqTensorEntry.Fits.vector {e : TqTensorEntry} {w : TqWant} (h : e.Fits w)
    (hcols : w.cols = 0) (hrows : w.rows ≠ 0) : e.HasShape [w.rows] := by
  have hshape := h.2
  unfold TqWant.shapeOk at hshape
  rw [if_neg (not_not.mpr hcols), if_pos hrows, decide_eq_true_eq] at hshape
  obtain ⟨hndim, h₀⟩ := hshape
  unfold HasShape
  rw [hndim, h₀]
  exact ⟨rfl, rfl⟩

/-! ## Slots -/

section Accepted
variable {image : List UInt8} {bytes : UInt64} {arena : TqArena} {m : TqModel}

theorem Accepted.names (h : Accepted image bytes arena m) :
    ∀ e ∈ directory image, e.name.length = tqNameBytes :=
  directory_names fun hcount => (h.table hcount).trans (Nat.min_le_left _ _)

/-- The entry that a global name finds has exactly that name. -/
theorem Accepted.firstEntry_name (h : Accepted image bytes arena m) {w : TqWant}
    (hw : w ∈ tqWants (imageDims image)) {e : TqTensorEntry}
    (he : TinyLlm.firstEntry image w.name = some e) :
    e ∈ directory image ∧ cstr e.name = w.name := by
  obtain ⟨hzero, hlen, -⟩ := Etq.want_name hw
  have hmem := List.mem_of_find?_eq_some he
  have hname := List.find?_some he
  refine ⟨hmem, (tqNameEq_iff hzero ?_).mp hname⟩
  rw [h.names e hmem]
  exact hlen

/-- The entry that the slot of a global tensor holds. -/
theorem Accepted.global_slot (h : Accepted image bytes arena m) {i : Nat} {w : TqWant}
    (hw : (tqWants (imageDims image))[i]? = some w)
    (hset : w.required = true ∨ (imageWalk image).offsetOf i ≠ 0) :
    ∃ e ∈ directory image, cstr e.name = w.name ∧ e.Fits w ∧
      (imageWalk image).offsetOf i = e.offset := by
  have hmem : w ∈ tqWants (imageDims image) := List.mem_of_getElem? hw
  have hslot : (imageWalk image).offsetOf i = (w.settle (directory image)).offset := by
    unfold TqWalk.offsetOf imageWalk
    dsimp only
    rw [List.getElem?_map, hw]
    rfl
  have hsome : ∃ e, TinyLlm.firstEntry image w.name = some e := by
    rcases hset with hreq | hne
    · exact h.required hmem hreq
    · cases he : TinyLlm.firstEntry image w.name with
      | some e => exact ⟨e, rfl⟩
      | none =>
          refine absurd ?_ hne
          have hzero : ∀ v ∈ tqWants (imageDims image), v.offset = 0 := by
            intro v hv
            simp only [tqWants, List.mem_cons, List.not_mem_nil, or_false] at hv
            rcases hv with rfl | rfl | rfl | rfl | rfl | rfl | rfl <;> rfl
          unfold TinyLlm.firstEntry at he
          rw [hslot, TqWant.settle, he]
          exact hzero w hmem
  obtain ⟨e, he⟩ := hsome
  obtain ⟨hin, hname⟩ := h.firstEntry_name hmem he
  obtain ⟨-, hfits, hoff⟩ := h.firstEntry hmem he
  exact ⟨e, hin, hname, hfits, hslot.trans hoff⟩

theorem Accepted.holds_matrix (h : Accepted image bytes arena m) {i : Nat} {w : TqWant}
    (hw : (tqWants (imageDims image))[i]? = some w)
    (hset : w.required = true ∨ (imageWalk image).offsetOf i ≠ 0) (hcols : w.cols ≠ 0) :
    Holds image ((imageWalk image).offsetOf i) w.name w.dtype [w.rows, w.cols] := by
  obtain ⟨e, he, hname, hfits, hoff⟩ := h.global_slot hw hset
  exact ⟨e, he, hname, hfits.1, hfits.matrix hcols, hoff⟩

theorem Accepted.holds_vector (h : Accepted image bytes arena m) {i : Nat} {w : TqWant}
    (hw : (tqWants (imageDims image))[i]? = some w)
    (hset : w.required = true ∨ (imageWalk image).offsetOf i ≠ 0) (hcols : w.cols = 0)
    (hrows : w.rows ≠ 0) :
    Holds image ((imageWalk image).offsetOf i) w.name w.dtype [w.rows] := by
  obtain ⟨e, he, hname, hfits, hoff⟩ := h.global_slot hw hset
  exact ⟨e, he, hname, hfits.1, hfits.vector hcols hrows, hoff⟩

/-- The slots are exact when the entries that fill the layers are in digits. -/
theorem Accepted.slotsExact (h : Accepted image bytes arena m)
    (hdigits : ∀ l < m.nLayers, ∀ s e, TinyLlm.lastEntry image l s = some e → e.InDigits) :
    SlotsExact image m := by
  have hsized := tqModelDims_sized h.checked
  have hdim := hsized.dim_pos.ne'
  have hvocab := hsized.vocabSize_pos.ne'
  have hnamed : ∀ l < m.nLayers, ∀ s e, TinyLlm.lastEntry image l s = some e →
      e ∈ directory image ∧ e.IsNamed l s := by
    intro l hl s e he
    have hmem : e ∈ directory image := List.mem_reverse.mp (List.mem_of_find?_eq_some he)
    have hspells : e.spells = some (l, s) := by simpa using List.find?_some he
    exact ⟨hmem, isNamed_of_inDigits (h.names e hmem) hspells (hdigits l hl s e he)⟩
  have hmodel := h.model
  subst hmodel
  constructor
  · intro l hl s
    obtain ⟨e, he⟩ := h.layerEntry hl s
    obtain ⟨hmem, hname⟩ := hnamed l hl s e he
    obtain ⟨-, hfits, hoff⟩ := h.lastEntry hl he
    obtain ⟨hdtype, hshape⟩ := hfits.documented hsized
    exact ⟨e, hmem, hname, hdtype, hshape, hoff⟩
  · exact h.holds_matrix (i := 0) rfl (.inl rfl) hdim
  · exact h.holds_vector (i := 1) rfl (.inl rfl) rfl hdim
  · intro hown
    have hoff : (tqResolve (imageDims image) (imageWalk image)).classifier =
        (imageWalk image).offsetOf 2 :=
      if_neg (not_not.mpr hown)
    rw [hoff]
    exact h.holds_matrix (i := 2) rfl (.inl (decide_eq_true hown)) hdim
  · exact fun hshared => if_pos hshared
  · exact fun hset => h.holds_vector (i := 3) rfl (.inr hset) rfl hvocab
  · exact fun hset => h.holds_vector (i := 4) rfl (.inr hset) rfl (Nat.succ_ne_zero _)
  · intro hset
    obtain ⟨e, he, hname, hfits, hoff⟩ := h.global_slot (i := 5) rfl (.inr hset)
    exact ⟨e, he, hname, hfits.1, hoff⟩
  · exact fun hset => h.holds_vector (i := 6) rfl (.inr hset) rfl hvocab
  · intro e he
    cases he with
    | global hname hfirst =>
        obtain ⟨i, w, hw, rfl⟩ := exists_want hname
        exact .inl ((h.firstEntry_name (List.mem_of_getElem? hw) hfirst).2 ▸ hname)
    | layer hl hlast => exact .inr ⟨_, hl, _, (hnamed _ hl _ _ hlast).2⟩

/-- No global tensor starts like one of a layer. -/
theorem want_first {w : TqWant} (hw : w ∈ tqWants m) :
    0 < w.name.length ∧ w.name.getD 0 0 ≠ 108 := by
  have h : ((tqWants m).map TqWant.name).all
      (fun name => decide (0 < name.length ∧ name.getD 0 0 ≠ 108)) =
      true := by
    rw [tqWants_names]
    decide
  exact of_decide_eq_true (List.all_eq_true.mp h _ (List.mem_map_of_mem hw))

/-- **Exact slots.** -/
theorem Accepted.slotsExact_iff (h : Accepted image bytes arena m) :
    SlotsExact image m ↔ ∀ l < m.nLayers, ∀ s e, TinyLlm.lastEntry image l s = some e →
      e.InDigits := by
  refine ⟨fun hexact l hl s e he => ?_, h.slotsExact⟩
  have hfills : Fills image e := by
    refine .layer ?_ he
    rw [h.model] at hl
    exact hl
  have hspells : e.spells = some (l, s) := by simpa using List.find?_some he
  rcases hexact.only e hfills with hglobal | ⟨l', -, s', hname⟩
  · obtain ⟨i, w, hw, hname⟩ := exists_want hglobal
    obtain ⟨hlong, hfirst⟩ := want_first (List.mem_of_getElem? hw)
    rw [← getD_cstr hname.symm hlong] at hfirst
    exact absurd (spells_eq_some hspells).1 hfirst
  · exact inDigits_of_isNamed hname

end Accepted

/-! ## Opening -/

/-- **Exact resolution.** A model that opened has in every slot the offset of an
entry with exactly the documented name, and no other entry fills one, if and
only if for each tensor of each layer the last entry that spells it does so in
digits. -/
theorem tqModelOpen_exact {image : List UInt8} {bytes : UInt64} {st : TqStore}
    (hst : StoreOver image bytes st) {arena : TqArena} {t t' : TqTile} {m : TqModel}
    (h : (tqModelOpen st arena).exec t = (.ok m, t')) :
    SlotsExact image m ↔ ∀ l < m.nLayers, ∀ s e, lastEntry image l s = some e → e.InDigits :=
  (hst.accepted h).slotsExact_iff

/-- The image with the names of the exporter. -/
theorem tqModelOpen_exact_sample :
    ∃ m t', (tqModelOpen (tqStoreInitMapped (sampleImage 60 4 0 0) 960) ⟨0, 1000, 2 ^ 64⟩).exec
      ⟨0, []⟩ =
      (.ok m, t') ∧ SlotsExact (sampleImage 60 4 0 0) m := by
  have hdesc : Describes (sampleHeader 60 4 960) (sampleEntries 60 0) :=
    sample_describes (by decide) (by decide) (by decide) (by decide)
  have hdigits : (sampleEntries 60 0).all (fun e => e.spells.isNone ||
      decide (48 ≤ (e.name.getD 1 0).toNat ∧ (e.name.getD 1 0).toNat ≤ 57) &&
      decide (48 ≤ (e.name.getD 2 0).toNat ∧ (e.name.getD 2 0).toNat ≤ 57) &&
      decide (48 ≤ (e.name.getD 3 0).toNat ∧ (e.name.getD 3 0).toNat ≤ 57)) = true := by
      decide +kernel
  obtain ⟨m, hres⟩ := bareSample_opens
  refine ⟨m, _, hres, (tqModelOpen_exact .mapped hres).mpr fun l hl s e he => ?_⟩
  have hmem : e ∈ directory (sampleImage 60 4 0 0) :=
    List.mem_reverse.mp (List.mem_of_find?_eq_some he)
  rw [sampleImage, directory_image hdesc] at hmem
  have hspells : e.spells = some (l, s) := by simpa using List.find?_some he
  have hall := List.all_eq_true.mp hdigits e hmem
  rw [hspells] at hall
  simp only [Option.isNone_some, Bool.false_or, Bool.and_eq_true, decide_eq_true_eq] at hall
  obtain ⟨⟨h₁, h₂⟩, h₃⟩ := hall
  unfold TqTensorEntry.InDigits
  simp only [List.forall_mem_cons]
  exact ⟨h₁, h₂, h₃, List.forall_mem_nil _⟩

/-- The sample image with one name changed: `l0/:.wq`, where `/` and `:` are the
characters before `0` and after `9`, so that the number is 0 * 100 - 10 + 10. -/
def oddImage : List UInt8 :=
  image (sampleHeader 60 4 960)
    ((sampleEntries 60 0).map fun e => if e.name =
      nameField "l000.wq" then { e with name := nameField "l0/:.wq" } else e)
    []

/-- That image opens as well, with no entry named `l000.wq`. -/
theorem tqModelOpen_odd :
    ∃ m t', (tqModelOpen (tqStoreInitMapped oddImage 960) ⟨0, 1000, 2 ^ 64⟩).exec ⟨0, []⟩ =
      (.ok m, t') ∧
      ¬ SlotsExact oddImage m := by
  have hsample : Describes (sampleHeader 60 4 960) (sampleEntries 60 0) :=
    sample_describes (by decide) (by decide) (by decide) (by decide)
  obtain ⟨es, hes⟩ : ∃ es, es = (sampleEntries 60 0).map fun e =>
    if e.name = nameField "l000.wq" then { e with name := nameField "l0/:.wq" } else e := ⟨_, rfl⟩
  have hdesc : Describes (sampleHeader 60 4 960) es := by
    refine ⟨hsample.header, fun e he => ?_, rfl, by rw [hes, List.length_map]; rfl⟩
    rw [hes] at he
    obtain ⟨d, hd, rfl⟩ := List.mem_map.mp he
    have hin := hsample.entries d hd
    split
    · have hname : (nameField "l0/:.wq").length = tqNameBytes := by decide
      exact ⟨hname, hin.fields⟩
    · exact hin
  have hodd : oddImage = image (sampleHeader 60 4 960) es [] := by rw [hes, oddImage]
  have hopen : ∃ m, (tqModelOpen (tqStoreInitMapped oddImage 960) ⟨0, 1000, 2 ^ 64⟩).exec ⟨0, []⟩ =
      (.ok m, ⟨0, []⟩) := by
    rw [hodd]
    refine open_image hdesc (by decide) ?_ (by decide) ?_ ⟨0, []⟩
    · rw [hes, List.length_map]
      decide
    · rw [hes]
      decide +kernel
  have hmissing : es.all (fun e => decide (cstr e.name ≠ Etq.layerName 0 .wq)) = true := by
    rw [hes]
    decide +kernel
  obtain ⟨m, hres⟩ := hopen
  refine ⟨m, _, hres, fun hexact => ?_⟩
  have hl : 0 < m.nLayers := by
    rw [(tqModelOpen_mapped.mp hres).1.model, hodd, imageDims, decode_image hdesc]
    exact Nat.one_pos
  obtain ⟨e, he, hname, -⟩ := hexact.layers 0 hl .wq
  rw [hodd, directory_image hdesc] at he
  exact of_decide_eq_true (List.all_eq_true.mp hmissing e he) hname.2

end TinyLlm
