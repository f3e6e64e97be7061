/-
# `TinyLlm.Model.Accepted` — the dimensions of an accepted model

What the header checks of `tq_model_open` leave: all dimensions positive and
below 2^31, the heads dividing the width, whole blocks, a quantized type.  Every
model that opens has them (`tqModelOpen_sized`).
-/
import TinyLlm.Model.Walk

namespace TinyLlm

open Bytes Relational

/-- The dimensions fit together. -/
structure TqModel.Sized (m : TqModel) : Prop where
  dim_pos : 0 < m.dim
  hiddenDim_pos : 0 < m.hiddenDim
  nLayers_pos : 0 < m.nLayers
  nKvHeads_pos : 0 < m.nKvHeads
  vocabSize_pos : 0 < m.vocabSize
  headSize_pos : 0 < m.headSize
  kvMul_pos : 0 < m.kvMul
  heads : m.nHeads * m.headSize = m.dim
  groups : m.kvMul * m.nKvHeads = m.nHeads
  kv : m.kvDim = m.headSize * m.nKvHeads
  dim_blocks : tqGroupSize ∣ m.dim
  hiddenDim_blocks : tqGroupSize ∣ m.hiddenDim
  dim_lt : m.dim < 2 ^ 31
  hiddenDim_lt : m.hiddenDim < 2 ^ 31
  vocabSize_lt : m.vocabSize < 2 ^ 31
  quantized : m.qtype = tqDtQ40 ∨ m.qtype = tqDtQ80

/-- What the header checks ask. -/
structure TqHeader.Checked (hdr : TqHeader) (storeBytes : Nat) : Prop where
  magic : hdr.magic = tqMagic
  version : hdr.version = tqVersion
  headerBytes : hdr.headerBytes = tqHeaderBytes
  arch : hdr.arch = tqArchLlama2
  qtype : hdr.qtype = tqDtQ40 ∨ hdr.qtype = tqDtQ80
  groupSize : hdr.groupSize = tqGroupSize
  fileBytes : hdr.fileBytes ≤ storeBytes
  dim : 0 < hdr.dim
  nLayers : 0 < hdr.nLayers
  nHeads : 0 < hdr.nHeads
  nKvHeads : 0 < hdr.nKvHeads
  vocabSize : 0 < hdr.vocabSize
  seqLen : 0 < hdr.seqLen
  hiddenDim : 0 < hdr.hiddenDim
  heads : hdr.dim % hdr.nHeads = 0
  groups : hdr.nHeads % hdr.nKvHeads = 0
  dimBlocks : hdr.dim % (tqGroupSize : Int) = 0
  hiddenDimBlocks : hdr.hiddenDim % (tqGroupSize : Int) = 0

/-- A check that comes before the rest. -/
theorem ite_error_eq_ok {ε α : Type} {p : Prop} [Decidable p] {rc : ε} {x : Except ε α} {a : α} :
    (if p then .error rc else x) = .ok a ↔ ¬ p ∧ x = .ok a := by
  by_cases hp : p
  · rw [if_pos hp]
    exact ⟨nofun, fun h => absurd hp h.1⟩
  · rw [if_neg hp]
    exact ⟨fun h => ⟨hp, h⟩, fun h => h.2⟩

theorem tqCheckHeader_ok {hdr : TqHeader} {n : Nat} :
    tqCheckHeader hdr n = .ok () ↔ hdr.Checked n := by
  unfold tqCheckHeader
  constructor
  · intro h
    obtain ⟨hmagic, h⟩ := ite_error_eq_ok.mp h
    obtain ⟨hversion, h⟩ := ite_error_eq_ok.mp h
    obtain ⟨harch, h⟩ := ite_error_eq_ok.mp h
    obtain ⟨hqtype, h⟩ := ite_error_eq_ok.mp h
    obtain ⟨hgroup, h⟩ := ite_error_eq_ok.mp h
    obtain ⟨hbytes, h⟩ := ite_error_eq_ok.mp h
    obtain ⟨hdims, h⟩ := ite_error_eq_ok.mp h
    obtain ⟨hheads, h⟩ := ite_error_eq_ok.mp h
    obtain ⟨hblocks, -⟩ := ite_error_eq_ok.mp h
    clear h
    constructor <;> omega
  · intro h
    rw [if_neg (by simp [h.magic]), if_neg (by simp [h.version, h.headerBytes]),
      if_neg (by simp [h.arch]), if_neg (by rcases h.qtype with hq | hq <;> simp [hq]),
      if_neg (by simp [h.groupSize]), if_neg (by simpa using h.fileBytes), if_neg,
      if_neg (by simp [h.heads, h.groups]), if_neg (by simp [h.dimBlocks, h.hiddenDimBlocks])]
    have := h.dim
    have := h.nLayers
    have := h.nHeads
    have := h.nKvHeads
    have := h.vocabSize
    have := h.seqLen
    have := h.hiddenDim
    omega

theorem toInt32_lt {v : Nat} (h : v < 2 ^ 32) : toInt32 v < 2 ^ 31 := by
  unfold toInt32
  split <;> omega

/-- The dimensions that a checked header gives. -/
theorem tqModelDims_sized {bs : List UInt8} {n : Nat} (h : (TqHeader.decode bs).Checked n) :
    (tqModelDims (TqHeader.decode bs)).Sized := by
  have hlt : ∀ k, toInt32 (leAt bs k 4) < 2 ^ 31 := fun k => toInt32_lt (leAt_lt bs k 4)
  have hdim : (TqHeader.decode bs).dim < 2 ^ 31 := hlt 40
  have hhidden : (TqHeader.decode bs).hiddenDim < 2 ^ 31 := hlt 44
  have hvocab : (TqHeader.decode bs).vocabSize < 2 ^ 31 := hlt 60
  revert h hdim hhidden hvocab
  generalize TqHeader.decode bs = hdr
  intro h hdim hhidden hvocab
  obtain ⟨dim, hd⟩ := Int.eq_ofNat_of_zero_le h.dim.le
  obtain ⟨heads, hh⟩ := Int.eq_ofNat_of_zero_le h.nHeads.le
  obtain ⟨kvHeads, hk⟩ := Int.eq_ofNat_of_zero_le h.nKvHeads.le
  obtain ⟨hidden, hhid⟩ := Int.eq_ofNat_of_zero_le h.hiddenDim.le
  have hdim0 : 0 < dim := by have := h.dim; omega
  have hheads0 : 0 < heads := by have := h.nHeads; omega
  have hkv0 : 0 < kvHeads := by have := h.nKvHeads; omega
  have hdvd : heads ∣ dim := by
    have := h.heads
    rw [hd, hh] at this
    exact Int.natCast_dvd_natCast.mp (Int.dvd_of_emod_eq_zero this)
  have hgroups : kvHeads ∣ heads := by
    have := h.groups
    rw [hh, hk] at this
    exact Int.natCast_dvd_natCast.mp (Int.dvd_of_emod_eq_zero this)
  have hblocks : tqGroupSize ∣ dim := by
    have := h.dimBlocks
    rw [hd] at this
    exact Int.natCast_dvd_natCast.mp (Int.dvd_of_emod_eq_zero this)
  have hhblocks : tqGroupSize ∣ hidden := by
    have := h.hiddenDimBlocks
    rw [hhid] at this
    exact Int.natCast_dvd_natCast.mp (Int.dvd_of_emod_eq_zero this)
  constructor
  · exact Int.pos_iff_toNat_pos.mp h.dim
  · exact Int.pos_iff_toNat_pos.mp h.hiddenDim
  · exact Int.pos_iff_toNat_pos.mp h.nLayers
  · exact Int.pos_iff_toNat_pos.mp h.nKvHeads
  · exact Int.pos_iff_toNat_pos.mp h.vocabSize
  · simp only [tqModelDims, hd, hh, Int.toNat_natCast]
    exact Nat.div_pos (Nat.le_of_dvd hdim0 hdvd) hheads0
  · simp only [tqModelDims, hk, hh, Int.toNat_natCast]
    exact Nat.div_pos (Nat.le_of_dvd hheads0 hgroups) hkv0
  · simp only [tqModelDims, hd, hh, Int.toNat_natCast]
    exact Nat.mul_div_cancel' hdvd
  · simp only [tqModelDims, hk, hh, Int.toNat_natCast]
    exact Nat.div_mul_cancel hgroups
  · rfl
  · simp only [tqModelDims, hd, Int.toNat_natCast]
    exact hblocks
  · simp only [tqModelDims, hhid, Int.toNat_natCast]
    exact hhblocks
  · exact (Int.toNat_lt h.dim.le).mpr hdim
  · exact (Int.toNat_lt h.hiddenDim.le).mpr hhidden
  · exact (Int.toNat_lt h.vocabSize.le).mpr hvocab
  · exact h.qtype

/-- Resolving offsets leaves the dimensions alone. -/
theorem TqModel.Sized.resolve {m : TqModel} (h : m.Sized) (s : TqWalk) : (tqResolve m s).Sized :=
  ⟨h.dim_pos, h.hiddenDim_pos, h.nLayers_pos, h.nKvHeads_pos, h.vocabSize_pos, h.headSize_pos,
    h.kvMul_pos, h.heads, h.groups, h.kv, h.dim_blocks, h.hiddenDim_blocks, h.dim_lt,
    h.hiddenDim_lt, h.vocabSize_lt, h.quantized⟩

/-! ## Opening, read backwards -/

theorem liftStatus_eq_ok {σ α : Type} {x : Except TqStatus α} {s s' : σ} {a : α}
    (h : (liftStatus x).exec s = (.ok a, s')) : x = .ok a ∧ s' = s := by
  cases x with
  | ok b =>
      cases h
      exact ⟨rfl, rfl⟩
  | error rc => cases h

/-- **A model that opened**: a header that passed its checks, and a walk that
found what is required. -/
theorem tqModelOpen_eq_ok {st : TqStore} {arena : TqArena} {t t' : TqTile} {m : TqModel}
    (h : (tqModelOpen st arena).exec t = (.ok m, t')) :
    ∃ bs t₁ t₂ s,
      (viewOr st 0 tqHeaderBytes .errTruncated >>= fun v => deref v tqHeaderBytes).exec t =
        (.ok bs, t₁) ∧ (TqHeader.decode bs).Checked st.bytes.toNat ∧
      (tqDirLoop st (tqModelDims (TqHeader.decode bs)) (TqHeader.decode bs).tensorCount 0
        ⟨tqWants (tqModelDims (TqHeader.decode bs)), fun _ _ => 0⟩).exec t₁ = (.ok s, t₂) ∧
      tqCheckFound (tqModelDims (TqHeader.decode bs)) s = .ok () ∧
      m = tqResolve (tqModelDims (TqHeader.decode bs)) s := by
  unfold tqModelOpen at h
  obtain ⟨v, t₀, hv, h₁⟩ := exec_bind_eq_ok h
  obtain ⟨bs, t₁, hbs, h₂⟩ := exec_bind_eq_ok h₁
  obtain ⟨_, t₂, hhdr, h₃⟩ := exec_bind_eq_ok h₂
  obtain ⟨hchecked, rfl⟩ := liftStatus_eq_ok hhdr
  dsimp only at h₃
  cases hc : tqCarve arena 0 (tqLayerOffsetsBytes * (tqModelDims (TqHeader.decode bs)).nLayers %
      arena.sizeMod) with
  | none =>
      rw [hc] at h₃
      cases h₃
  | some carved =>
      rw [hc] at h₃
      obtain ⟨s, t₃, hs, h₄⟩ := exec_bind_eq_ok h₃
      obtain ⟨_, t₄, hfound, h₅⟩ := exec_bind_eq_ok h₄
      obtain ⟨hchecks, rfl⟩ := liftStatus_eq_ok hfound
      cases h₅
      exact ⟨bs, t₂, t', s, by rw [exec_bind_ok hv, hbs], tqCheckHeader_ok.mp hchecked,
        hs, hchecks, rfl⟩

theorem tqModelOpen_sized {st : TqStore} {arena : TqArena} {t t' : TqTile} {m : TqModel}
    (h : (tqModelOpen st arena).exec t = (.ok m, t')) : m.Sized := by
  obtain ⟨bs, t₁, t₂, s, _, hhdr, _, _, rfl⟩ := tqModelOpen_eq_ok h
  exact (tqModelDims_sized hhdr).resolve s

/-! ## The directory of an image -/

/-- The entries from `idx` on, as they lie in the image. -/
def directoryFrom (image : List UInt8) (hdr : TqHeader) (idx : Nat) : List TqTensorEntry :=
  (List.range (hdr.tensorCount - idx)).map fun k =>
    TqTensorEntry.decode image (hdr.tensorTableOffset + idx * tqEntryBytes + k * tqEntryBytes)

section Mapped
variable {image : List UInt8} {bytes : UInt64}

/-- **A read of a mapped store.** -/
theorem mapped_read {off n : Nat} {rc : TqStatus} {t t' : TqTile} {β : Type}
    {k : List UInt8 → Tq TqTile β} {b : β} :
    (viewOr (tqStoreInitMapped image bytes) off n rc >>= fun v => deref v n >>= k).exec t =
      (.ok b, t') ↔
      (off + n) % 2 ^ 64 ≤ bytes.toNat ∧ n ≤ image.length - off ∧
      (k (slice image off n)).exec t = (.ok b, t') := by
  have hview : (viewOr (tqStoreInitMapped image bytes) off n rc).exec t =
      if (off + n) % 2 ^ 64 > bytes.toNat then (.error (.status rc), t)
      else (.ok (.direct (image.drop off)), t) := by
    unfold viewOr tqStoreView tqStoreInitMapped
    dsimp only
    split
    · rfl
    · rfl
  have hderef := behind_direct (image.drop off) t n
  rw [List.length_drop] at hderef
  by_cases hin : (off + n) % 2 ^ 64 > bytes.toNat
  · rw [if_pos hin] at hview
    rw [exec_bind_error hview]
    exact ⟨nofun, fun h => absurd h.1 (Nat.not_le.mpr hin)⟩
  · rw [if_neg hin] at hview
    rw [exec_bind_ok hview]
    by_cases hn : n ≤ image.length - off
    · rw [if_pos hn] at hderef
      rw [exec_bind_ok hderef]
      exact ⟨fun h => ⟨Nat.not_lt.mp hin, hn, h⟩, fun h => h.2.2⟩
    · rw [if_neg hn] at hderef
      rw [exec_bind_error hderef]
      exact ⟨nofun, fun h => absurd h.2.1 hn⟩

/-- A chunk of the directory. -/
theorem tqEntries_slice {off n : Nat} : tqEntries (slice image off (n * tqEntryBytes)) n =
    (List.range n).map fun k => TqTensorEntry.decode image (off + k * tqEntryBytes) := by
  refine List.map_congr_left fun k hk => ?_
  exact TqTensorEntry.decode_slice (Nat.succ_mul k tqEntryBytes ▸
    Nat.mul_le_mul_right tqEntryBytes (Nat.succ_le_of_lt (List.mem_range.mp hk)))

theorem directoryFrom_split {hdr : TqHeader} {idx n : Nat} (h : n ≤ hdr.tensorCount - idx) :
    directoryFrom image hdr idx =
      ((List.range n).map fun k => TqTensorEntry.decode image
        (hdr.tensorTableOffset + idx * tqEntryBytes + k * tqEntryBytes)) ++
      directoryFrom image hdr (idx + n) := by
  have hcount : hdr.tensorCount - idx = n + (hdr.tensorCount - (idx + n)) := by omega
  unfold directoryFrom
  rw [hcount, List.range_add, List.map_append, List.map_map]
  congr 1
  refine List.map_congr_left fun k _ => ?_
  show TqTensorEntry.decode image _ = _
  congr 1
  ring

/-- **The loop over the directory** of an image walks over its entries. -/
theorem tqDirLoop_mapped {m : TqModel} (hoff : m.hdr.tensorTableOffset < 2 ^ 32)
    (hcount : m.hdr.tensorCount < 2 ^ 32) (t t' : TqTile) (s' : TqWalk) :
    ∀ (fuel idx : Nat) (s : TqWalk), m.hdr.tensorCount ≤ idx + fuel →
      ((tqDirLoop (tqStoreInitMapped image bytes) m fuel idx s).exec t = (.ok s', t') ↔
        (idx < m.hdr.tensorCount →
          m.hdr.tensorTableOffset + m.hdr.tensorCount * tqEntryBytes ≤
          min image.length bytes.toNat) ∧
        (directoryFrom image m.hdr idx).foldlM (tqWalkEntry m) s = .ok s' ∧ t' = t)
  | 0, idx, s, hfuel => by
      have hnil : directoryFrom image m.hdr idx = [] := by
        unfold directoryFrom
        rw [Nat.sub_eq_zero_of_le (by omega), List.range_zero, List.map_nil]
      rw [tqDirLoop, hnil, List.foldlM_nil]
      constructor
      · intro h
        cases h
        exact ⟨fun h => by omega, rfl, rfl⟩
      · rintro ⟨_, hs, rfl⟩
        cases hs
        rfl
  | fuel + 1, idx, s, hfuel => by
      rw [tqDirLoop]
      by_cases hidx : idx < m.hdr.tensorCount
      · rw [if_pos hidx]
        dsimp only
        have htake : 0 < min (m.hdr.tensorCount - idx) tqDirChunk :=
          Nat.lt_min.mpr ⟨by omega, by decide⟩
        have htake' : min (m.hdr.tensorCount - idx) tqDirChunk ≤ m.hdr.tensorCount - idx :=
          Nat.min_le_left _ _
        revert htake htake'
        generalize min (m.hdr.tensorCount - idx) tqDirChunk = take
        intro htake htake'
        rw [mapped_read, directoryFrom_split htake', List.foldlM_append, tqEntries_slice]
        generalize hes : ((List.range take).map fun k => TqTensorEntry.decode image
          (m.hdr.tensorTableOffset + idx * tqEntryBytes + k * tqEntryBytes)) = es
        have hrest := fun s => tqDirLoop_mapped hoff hcount t t' s' fuel (idx + take) s (by omega)
        unfold tqEntryBytes at hrest ⊢
        cases hfold : es.foldlM (tqWalkEntry m) s with
        | error rc =>
            constructor
            · rintro ⟨_, _, h⟩
              cases h
            · rintro ⟨_, h, _⟩
              cases h
        | ok s₁ =>
            have hok : (liftStatus (.ok s₁) : Tq TqTile TqWalk).exec t = (.ok s₁, t) := rfl
            rw [exec_bind_ok hok, hrest]
            show _ ↔ _ ∧ (directoryFrom image m.hdr (idx + take)).foldlM (tqWalkEntry m) s₁ = _ ∧ _
            constructor
            · rintro ⟨hb, hi, hall, hfold, rfl⟩
              refine ⟨fun _ => ?_, hfold, rfl⟩
              by_cases hmore : idx + take < m.hdr.tensorCount
              · exact hall hmore
              · omega
            · rintro ⟨hall, hfold, rfl⟩
              have := hall hidx
              exact ⟨by omega, by omega, fun _ => this, hfold, rfl⟩
      · have hnil : directoryFrom image m.hdr idx = [] := by
          unfold directoryFrom
          rw [Nat.sub_eq_zero_of_le (by omega), List.range_zero, List.map_nil]
        rw [if_neg hidx, hnil, List.foldlM_nil]
        constructor
        · intro h
          cases h
          exact ⟨fun h => absurd h hidx, rfl, rfl⟩
        · rintro ⟨_, hs, rfl⟩
          cases hs
          rfl

/-! ## Accepted images -/

/-- The directory of an image. -/
def directory (image : List UInt8) : List TqTensorEntry :=
  directoryFrom image (TqHeader.decode image) 0

/-- The dimensions in the header of an image. -/
def imageDims (image : List UInt8) : TqModel := tqModelDims (TqHeader.decode image)

/-- What the walk over the directory of an image finds. -/
def imageWalk (image : List UInt8) : TqWalk where
  wants := (tqWants (imageDims image)).map (TqWant.settle (directory image))
  layers := layersAfter (directory image) (imageDims image).nLayers

/-- An image that `tq_model_open` accepts, and the model it becomes. -/
structure Accepted (image : List UInt8) (bytes : UInt64) (arena : TqArena) (m : TqModel) :
    Prop where
  header : tqHeaderBytes ≤ min image.length bytes.toNat
  checked : (TqHeader.decode image).Checked bytes.toNat
  arena_fits :
    (tqCarve arena 0 (tqLayerOffsetsBytes * (imageDims image).nLayers % arena.sizeMod)).isSome
  table : 0 < (TqHeader.decode image).tensorCount → (TqHeader.decode image).tensorTableOffset +
    (TqHeader.decode image).tensorCount * tqEntryBytes ≤ min image.length bytes.toNat
  admissible : ∀ pre e post, directory image = pre ++ e :: post →
    Admissible (imageDims image) (tqWants (imageDims image)) pre e
  found : tqCheckFound (imageDims image) (imageWalk image) = .ok ()
  model : m = tqResolve (imageDims image) (imageWalk image)

theorem directory_names (h : 0 < (TqHeader.decode image).tensorCount →
    (TqHeader.decode image).tensorTableOffset + (TqHeader.decode image).tensorCount * tqEntryBytes ≤
      image.length) : ∀ e ∈ directory image, e.name.length = tqNameBytes := by
  intro e he
  obtain ⟨k, hk, rfl⟩ := List.mem_map.mp he
  have hk := List.mem_range.mp hk
  have := h (by omega)
  have := Nat.mul_le_mul_right tqEntryBytes (show k + 1 ≤
    (TqHeader.decode image).tensorCount by omega)
  refine length_slice ?_
  unfold tqEntryBytes tqNameBytes at *
  omega

/-- **Acceptance.** -/
theorem tqModelOpen_mapped {arena : TqArena} {t t' : TqTile} {m : TqModel} :
    (tqModelOpen (tqStoreInitMapped image bytes) arena).exec t = (.ok m, t') ↔
      Accepted image bytes arena m ∧ t' = t := by
  have hoff : (TqHeader.decode image).tensorTableOffset < 2 ^ 32 := leAt_lt image 20 4
  have hcount : (TqHeader.decode image).tensorCount < 2 ^ 32 := leAt_lt image 16 4
  have hloop := fun t' s => @tqDirLoop_mapped image bytes (imageDims image) hoff hcount t t' s
    (TqHeader.decode image).tensorCount 0 ⟨tqWants (imageDims image), fun _ _ => 0⟩
    (Nat.le_of_eq (Nat.zero_add _).symm)
  unfold tqModelOpen
  rw [mapped_read, TqHeader.decode_slice]
  dsimp only
  constructor
  · rintro ⟨hb, hi, h⟩
    obtain ⟨_, t₁, hhdr, h₁⟩ := exec_bind_eq_ok h
    obtain ⟨hchecked, rfl⟩ := liftStatus_eq_ok hhdr
    cases hc : tqCarve arena 0
      (tqLayerOffsetsBytes * (tqModelDims (TqHeader.decode image)).nLayers %
        arena.sizeMod) with
    | none =>
        rw [hc] at h₁
        cases h₁
    | some carved =>
        rw [hc] at h₁
        obtain ⟨s, t₂, hs, h₂⟩ := exec_bind_eq_ok h₁
        obtain ⟨_, t₃, hfound, h₃⟩ := exec_bind_eq_ok h₂
        obtain ⟨hchecks, rfl⟩ := liftStatus_eq_ok hfound
        cases h₃
        obtain ⟨htable, hfold, rfl⟩ := (hloop t' s).mp hs
        have hnames := directory_names fun h => (htable h).trans (Nat.min_le_left _ _)
        obtain ⟨hadm, rfl⟩ := (tqWalk_ok hnames s).mp hfold
        refine ⟨⟨?_, tqCheckHeader_ok.mp hchecked, by rw [imageDims, hc]; rfl, htable, hadm,
          hchecks, rfl⟩, rfl⟩
        unfold tqHeaderBytes at *
        omega
  · rintro ⟨hacc, rfl⟩
    have hheader := hacc.header
    have hnames := directory_names fun h => (hacc.table h).trans (Nat.min_le_left _ _)
    have hdir := (hloop t' (imageWalk image)).mpr
      ⟨hacc.table, (tqWalk_ok hnames _).mpr ⟨hacc.admissible, rfl⟩, rfl⟩
    have hlift : ∀ {α : Type} {x : Except TqStatus α} {a : α}, x = .ok a →
        (liftStatus x).exec t' = (.ok a, t') := by
      rintro α x a rfl
      rfl
    refine ⟨?_, ?_, ?_⟩
    · unfold tqHeaderBytes at *
      omega
    · unfold tqHeaderBytes at *
      omega
    · have hbytes : (tqStoreInitMapped image bytes).bytes.toNat = bytes.toNat := rfl
      rw [hbytes, exec_bind_ok (hlift (tqCheckHeader_ok.mpr hacc.checked))]
      obtain ⟨carved, hc⟩ := Option.isSome_iff_exists.mp hacc.arena_fits
      rw [imageDims] at hc
      rw [hc]
      exact (exec_bind_ok hdir).trans
        ((exec_bind_ok (hlift hacc.found)).trans (by rw [hacc.model]; rfl))

/-! ## Offsets -/

/-- An offset that was resolved is that of an entry. -/
theorem offset_mem (s : TqWalk) (es : List TqTensorEntry) (ws : List TqWant)
    (hws : ∀ w ∈ ws, w.offset = 0) (hs : s.wants = ws.map (TqWant.settle es)) (i : Nat) :
    s.offsetOf i = 0 ∨ ∃ e ∈ es, s.offsetOf i = e.offset := by
  unfold TqWalk.offsetOf
  rw [hs, List.getElem?_map]
  cases hw : ws[i]? with
  | none => exact .inl rfl
  | some w =>
      show (w.settle es).offset = 0 ∨ ∃ e ∈ es, (w.settle es).offset = e.offset
      unfold TqWant.settle
      cases hf : es.find? fun e => tqNameEq e.name w.name with
      | none => exact .inl (hws w (List.mem_of_getElem? hw))
      | some e => exact .inr ⟨e, List.mem_of_find?_eq_some hf, rfl⟩

theorem layersAfter_mem (es : List TqTensorEntry) (n l : Nat) (s : TqLayerSlot) :
    layersAfter es n l s = 0 ∨ ∃ e ∈ es, layersAfter es n l s = e.offset := by
  unfold layersAfter
  split
  · cases hf : es.reverse.find? fun e => e.spells = some (l, s) with
    | none => exact .inl rfl
    | some e => exact .inr ⟨e, List.mem_reverse.mp (List.mem_of_find?_eq_some hf), rfl⟩
  · exact .inl rfl

theorem directory_offset_lt {e : TqTensorEntry} (h : e ∈ directory image) : e.offset < 2 ^ 64 := by
  obtain ⟨k, _, rfl⟩ := List.mem_map.mp h
  exact leAt_lt image _ 8

theorem imageWalk_offset_lt (i : Nat) : (imageWalk image).offsetOf i < 2 ^ 64 := by
  have hnew : ∀ w ∈ tqWants (imageDims image), w.offset = 0 := by
    intro w hw
    simp only [tqWants, List.mem_cons, List.not_mem_nil, or_false] at hw
    rcases hw with rfl | rfl | rfl | rfl | rfl | rfl | rfl <;> rfl
  rcases offset_mem (imageWalk image) _ _ hnew rfl i with h | ⟨e, he, h⟩
  · rw [h]
    decide
  · rw [h]
    exact directory_offset_lt he

/-- The offsets of an accepted model have 64 bits. -/
theorem Accepted.layers_lt {arena : TqArena} {m : TqModel} (h : Accepted image bytes arena m)
    (l : Nat) (s : TqLayerSlot) : m.layers l s < 2 ^ 64 := by
  rw [h.model]
  show layersAfter (directory image) _ l s < 2 ^ 64
  rcases layersAfter_mem (directory image) (imageDims image).nLayers l s with h | ⟨e, he, h⟩
  · rw [h]
    decide
  · rw [h]
    exact directory_offset_lt he

theorem Accepted.classifier_lt {arena : TqArena} {m : TqModel} (h : Accepted image bytes arena m) :
    m.classifier < 2 ^ 64 := by
  rw [h.model]
  unfold tqResolve
  dsimp only
  split
  · exact imageWalk_offset_lt 0
  · exact imageWalk_offset_lt 2

end Mapped

end TinyLlm
