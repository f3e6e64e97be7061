/-
# `TinyLlm.Model.Image` — building images

The bytes of a header and of an entry, field after field, and images made of a
header, its directory and the data: what `tq_model_open` reads from them is
what was put in (`decode_image`, `directory_image`), so whether it accepts
depends on the header and the directory alone (`accepted_image`).
-/
import TinyLlm.Model.Accepted

namespace TinyLlm

open Bytes

/-! ## Headers -/

/-- Two's complement. -/
def ofInt32 (i : Int) : Nat := (i % 2 ^ 32).toNat

theorem toInt32_ofInt32 {i : Int} (h : -2 ^ 31 ≤ i ∧ i < 2 ^ 31) : toInt32 (ofInt32 i) = i := by
  unfold toInt32 ofInt32
  split <;> omega

theorem ofInt32_lt (i : Int) : ofInt32 i < 256 ^ 4 := by
  unfold ofInt32
  omega

namespace TqHeader

/-- The fields in the order of the file, with their widths. -/
def fields (h : TqHeader) : List (Nat × Nat) :=
  [(4, h.magic), (4, h.version), (4, h.headerBytes), (4, h.arch), (4, h.tensorCount),
   (4, h.tensorTableOffset), (4, h.dataOffset), (4, h.flags), (8, h.fileBytes),
   (4, ofInt32 h.dim), (4, ofInt32 h.hiddenDim), (4, ofInt32 h.nLayers), (4, ofInt32 h.nHeads),
   (4, ofInt32 h.nKvHeads), (4, ofInt32 h.vocabSize), (4, ofInt32 h.seqLen), (4, h.qtype),
   (4, h.groupSize), (4, h.sharedClassifier), (4, h.ropeTheta), (4, h.normEps), (4, h.bosToken),
   (4, h.eosToken)]

def widths : List Nat := [4, 4, 4, 4, 4, 4, 4, 4, 8, 4, 4, 4, 4, 4, 4, 4, 4, 4, 4, 4, 4, 4, 4]

theorem fields_widths (h : TqHeader) : h.fields.map Prod.fst = widths := rfl

/-- The signed fields. -/
def dims (h : TqHeader) : List Int :=
  [h.dim, h.hiddenDim, h.nLayers, h.nHeads, h.nKvHeads, h.vocabSize, h.seqLen]

/-- Every field fits its width. -/
structure InRange (h : TqHeader) : Prop where
  fields : ∀ f ∈ h.fields, f.2 < 256 ^ f.1
  dims : ∀ i ∈ h.dims, -2 ^ 31 ≤ i ∧ i < 2 ^ 31

/-- The 256 bytes of a header, the reserved ones zero. -/
def encode (h : TqHeader) : List UInt8 := pack h.fields ++ List.replicate 160 0

theorem length_encode (h : TqHeader) : h.encode.length = tqHeaderBytes := by
  rw [encode, List.length_append, length_pack, List.length_replicate, packSize, fields_widths]
  rfl

/-- **A header** is read back from its bytes. -/
theorem decode_encode {h : TqHeader} (hr : h.InRange) (rest : List UInt8) :
    decode (h.encode ++ rest) = h := by
  have field : ∀ i off w v, h.fields[i]? = some (w, v) → (widths.take i).sum = off →
      leAt (h.encode ++ rest) off w = v := by
    rintro i _ w v hi rfl
    rw [encode, List.append_assoc, ← fields_widths h, ← List.map_take]
    exact leAt_pack hi (hr.fields _ (List.mem_of_getElem? hi))
  have signed : ∀ i off n, h.fields[i]? = some (4, ofInt32 n) → (widths.take i).sum = off →
      n ∈ h.dims → toInt32 (leAt (h.encode ++ rest) off 4) = n := by
    intro i off n hi hoff hn
    rw [field i off 4 _ hi hoff]
    exact toInt32_ofInt32 (hr.dims n hn)
  revert field signed
  generalize h.encode ++ rest = bs
  intro field signed
  unfold decode
  congr
  · exact field 0 _ 4 _ rfl rfl
  · exact field 1 _ 4 _ rfl rfl
  · exact field 2 _ 4 _ rfl rfl
  · exact field 3 _ 4 _ rfl rfl
  · exact field 4 _ 4 _ rfl rfl
  · exact field 5 _ 4 _ rfl rfl
  · exact field 6 _ 4 _ rfl rfl
  · exact field 7 _ 4 _ rfl rfl
  · exact field 8 _ 8 _ rfl rfl
  · exact signed 9 _ _ rfl rfl (by simp [dims])
  · exact signed 10 _ _ rfl rfl (by simp [dims])
  · exact signed 11 _ _ rfl rfl (by simp [dims])
  · exact signed 12 _ _ rfl rfl (by simp [dims])
  · exact signed 13 _ _ rfl rfl (by simp [dims])
  · exact signed 14 _ _ rfl rfl (by simp [dims])
  · exact signed 15 _ _ rfl rfl (by simp [dims])
  · exact field 16 _ 4 _ rfl rfl
  · exact field 17 _ 4 _ rfl rfl
  · exact field 18 _ 4 _ rfl rfl
  · exact field 19 _ 4 _ rfl rfl
  · exact field 20 _ 4 _ rfl rfl
  · exact field 21 _ 4 _ rfl rfl
  · exact field 22 _ 4 _ rfl rfl

end TqHeader

/-! ## Entries -/

namespace TqTensorEntry

/-- The fields after the name. -/
def fields (e : TqTensorEntry) : List (Nat × Nat) :=
  [(4, e.dtype), (4, e.ndim), (4, e.shape0), (4, e.shape1), (4, e.shape2), (4, e.shape3),
   (8, e.offset), (8, e.nbytes)]

/-- Every field fits its width. -/
structure InRange (e : TqTensorEntry) : Prop where
  name : e.name.length = tqNameBytes
  fields : ∀ f ∈ e.fields, f.2 < 256 ^ f.1

/-- The 64 bytes of an entry. -/
def encode (e : TqTensorEntry) : List UInt8 := e.name ++ pack e.fields

theorem length_encode {e : TqTensorEntry} (h : e.InRange) : e.encode.length = tqEntryBytes := by
  rw [encode, List.length_append, length_pack, h.name]
  rfl

/-- **An entry** is read back from its bytes. -/
theorem decode_encode {e : TqTensorEntry} (h : e.InRange) (before after : List UInt8) :
    decode (before ++ e.encode ++ after) before.length = e := by
  have hsplit : before ++ e.encode ++ after = before ++ e.name ++ (pack e.fields ++ after) := by
    rw [encode]
    simp only [List.append_assoc]
  have field : ∀ i w v, e.fields[i]? = some (w, v) →
      leAt (before ++ e.encode ++ after) (before.length + (24 + packSize (e.fields.take i))) w =
      v := by
    intro i w v hi
    have hlen : (before ++ e.name).length = before.length + 24 := by
      rw [List.length_append, h.name]
      rfl
    rw [hsplit, leAt_append_right (by omega), hlen, ← Nat.add_assoc, Nat.add_sub_cancel_left]
    exact leAt_pack hi (h.fields _ (List.mem_of_getElem? hi))
  have hname : slice (before ++ e.encode ++ after) before.length tqNameBytes = e.name := by
    have hlen := h.name
    rw [hsplit, List.append_assoc, slice_append_right (Nat.le_refl _), Nat.sub_self,
      slice_append_left (by omega), slice_zero hlen]
  unfold decode
  congr
  · exact field 0 4 _ rfl
  · exact field 1 4 _ rfl
  · exact field 2 4 _ rfl
  · exact field 3 4 _ rfl
  · exact field 4 4 _ rfl
  · exact field 5 4 _ rfl
  · exact field 6 8 _ rfl
  · exact field 7 8 _ rfl

end TqTensorEntry

/-! ## Images -/

/-- A header, the directory and the data. -/
def image (h : TqHeader) (es : List TqTensorEntry) (data : List UInt8) : List UInt8 :=
  h.encode ++ es.flatMap TqTensorEntry.encode ++ data

/-- The header describes the directory that follows it. -/
structure Describes (h : TqHeader) (es : List TqTensorEntry) : Prop where
  header : h.InRange
  entries : ∀ e ∈ es, e.InRange
  table : h.tensorTableOffset = tqHeaderBytes
  count : h.tensorCount = es.length

section Image
variable {h : TqHeader} {es : List TqTensorEntry} {data : List UInt8}

theorem length_entries : ∀ {es : List TqTensorEntry}, (∀ e ∈ es, e.InRange) →
    (es.flatMap TqTensorEntry.encode).length = es.length * tqEntryBytes
  | [], _ => rfl
  | e :: es, hes => by
      rw [List.flatMap_cons, List.length_append,
        (TqTensorEntry.length_encode (hes e List.mem_cons_self)),
        length_entries fun d hd => hes d (List.mem_cons_of_mem e hd), List.length_cons,
        Nat.succ_mul, Nat.add_comm]

theorem length_image (hd : Describes h es) :
    (image h es data).length = tqHeaderBytes + es.length * tqEntryBytes + data.length := by
  rw [image, List.length_append, List.length_append, TqHeader.length_encode,
    length_entries hd.entries]

theorem decode_image (hd : Describes h es) : TqHeader.decode (image h es data) = h := by
  rw [image, List.append_assoc]
  exact TqHeader.decode_encode hd.header _

theorem decode_entries :
    ∀ {es : List TqTensorEntry} (before after : List UInt8), (∀ e ∈ es, e.InRange) →
    ((List.range es.length).map fun k => TqTensorEntry.decode
      (before ++ es.flatMap TqTensorEntry.encode ++ after) (before.length + k * tqEntryBytes)) = es
  | [], _, _, _ => rfl
  | e :: es, before, after, hes => by
      have he := hes e List.mem_cons_self
      have hlen := TqTensorEntry.length_encode he
      have ih := decode_entries (before ++ e.encode) after
        fun d hd => hes d (List.mem_cons_of_mem e hd)
      rw [List.length_cons, List.range_succ_eq_map, List.map_cons, List.map_map, List.flatMap_cons]
      congr 1
      · have := TqTensorEntry.decode_encode he before (es.flatMap TqTensorEntry.encode ++ after)
        simpa only [Nat.zero_mul, Nat.add_zero, List.append_assoc] using this
      · rw [List.length_append, hlen] at ih
        refine Eq.trans (List.map_congr_left fun k _ => ?_) ih
        show TqTensorEntry.decode _ _ = _
        rw [Nat.succ_mul, Nat.add_comm (k * tqEntryBytes), ← Nat.add_assoc]
        simp only [List.append_assoc]

/-- **The directory** of an image is the one it was built with. -/
theorem directory_image (hd : Describes h es) : directory (image h es data) = es := by
  have hentries := decode_entries h.encode data hd.entries
  rw [TqHeader.length_encode] at hentries
  unfold directory directoryFrom
  rw [decode_image hd, hd.table, hd.count, Nat.sub_zero, Nat.zero_mul, Nat.add_zero]
  exact hentries

/-- What the walk over a built directory does. -/
def walkOf (h : TqHeader) (es : List TqTensorEntry) : Except TqStatus TqWalk :=
  es.foldlM (tqWalkEntry (tqModelDims h)) ⟨tqWants (tqModelDims h), fun _ _ => 0⟩

/-- **Acceptance of a built image.** -/
theorem accepted_image {bytes : UInt64} {arena : TqArena} {s : TqWalk} (hd : Describes h es)
    (hchecked : h.Checked bytes.toNat)
    (hlen : tqHeaderBytes + es.length * tqEntryBytes ≤ bytes.toNat)
    (hcarve :
      (tqCarve arena 0 (tqLayerOffsetsBytes * (tqModelDims h).nLayers % arena.sizeMod)).isSome)
    (hwalk : walkOf h es = .ok s) (hfound : tqCheckFound (tqModelDims h) s = .ok ()) :
    Accepted (image h es data) bytes arena (tqResolve (tqModelDims h) s) := by
  have hdims : imageDims (image h es data) = tqModelDims h := by rw [imageDims, decode_image hd]
  have hnames : ∀ e ∈ es, e.name.length = tqNameBytes := fun e he => (hd.entries e he).name
  obtain ⟨hadm, hs⟩ := (tqWalk_ok hnames s).mp hwalk
  have himage : imageWalk (image h es data) = s := by
    rw [hs, imageWalk, hdims, directory_image hd]
  have hlength : (image h es data).length = _ := length_image hd
  constructor
  · rw [hlength]
    omega
  · rw [decode_image hd]
    exact hchecked
  · rw [hdims]
    exact hcarve
  · rw [hlength, decode_image hd, hd.table, hd.count]
    omega
  · rw [directory_image hd, hdims]
    exact hadm
  · rw [himage, hdims]
    exact hfound
  · rw [himage, hdims]

/-- **A built image opens** when its walk and the search for what is missing go through. -/
theorem open_image {bytes : UInt64} {arena : TqArena} (hd : Describes h es)
    (hchecked : tqCheckHeader h bytes.toNat = .ok ())
    (hlen : tqHeaderBytes + es.length * tqEntryBytes ≤ bytes.toNat)
    (hcarve :
      (tqCarve arena 0 (tqLayerOffsetsBytes * (tqModelDims h).nLayers % arena.sizeMod)).isSome)
    (hwalk : ((walkOf h es).bind (tqCheckFound (tqModelDims h))).isOk) (t : TqTile) :
    ∃ m, (tqModelOpen (tqStoreInitMapped (image h es data) bytes) arena).exec t = (.ok m, t) := by
  cases hs : walkOf h es with
  | error rc =>
      rw [hs] at hwalk
      cases hwalk
  | ok s =>
      rw [hs] at hwalk
      cases hfound : tqCheckFound (tqModelDims h) s with
      | error rc =>
          have hbind : ((Except.ok s).bind (tqCheckFound (tqModelDims h))).isOk = false :=
            congrArg _ hfound
          exact absurd hwalk (Bool.eq_false_iff.mp hbind)
      | ok u =>
          have hacc := @accepted_image h es data bytes arena s hd (tqCheckHeader_ok.mp hchecked)
            hlen hcarve hs hfound
          exact ⟨_, tqModelOpen_mapped.mpr ⟨hacc, rfl⟩⟩

/-- What the walk finds in a built image. -/
theorem imageWalk_image (hd : Describes h es) : imageWalk (image h es data) =
    ⟨(tqWants (tqModelDims h)).map (TqWant.settle es), layersAfter es (tqModelDims h).nLayers⟩ := by
  unfold imageWalk imageDims
  rw [decode_image hd, directory_image hd]

end Image

/-! ## A smallest model -/

/-- A name field. -/
def nameField (name : String) : List UInt8 :=
  ascii name ++ List.replicate (tqNameBytes - (ascii name).length) 0

/-- One layer of width 32, its tensors all at the offset where the data starts. -/
def sampleHeader (vocab seqLen fileBytes : Nat) : TqHeader where
  magic := tqMagic
  version := tqVersion
  headerBytes := tqHeaderBytes
  arch := tqArchLlama2
  tensorCount := 11
  tensorTableOffset := tqHeaderBytes
  dataOffset := 960
  flags := 0
  fileBytes := fileBytes
  dim := 32
  hiddenDim := 32
  nLayers := 1
  nHeads := 1
  nKvHeads := 1
  vocabSize := vocab
  seqLen := seqLen
  qtype := tqDtQ40
  groupSize := tqGroupSize
  sharedClassifier := 1
  ropeTheta := 0
  normEps := 0
  bosToken := 1
  eosToken := 2

def sampleVector (name : String) (nbytes : Nat) : TqTensorEntry :=
  ⟨nameField name, tqDtF32, 1, 32, 0, 0, 0, 960, nbytes⟩

def sampleMatrix (name : String) (rows nbytes : Nat) : TqTensorEntry :=
  ⟨nameField name, tqDtQ40, 2, rows, 32, 0, 0, 960, nbytes⟩

/-- Every entry declares `nbytes` bytes. -/
def sampleEntries (vocab nbytes : Nat) : List TqTensorEntry :=
  [sampleMatrix "tok_emb" vocab nbytes, sampleVector "rms_final" nbytes,
   sampleVector "l000.rms_att" nbytes, sampleVector "l000.rms_ffn" nbytes,
   sampleMatrix "l000.wq" 32 nbytes, sampleMatrix "l000.wk" 32 nbytes,
   sampleMatrix "l000.wv" 32 nbytes, sampleMatrix "l000.wo" 32 nbytes,
   sampleMatrix "l000.w1" 32 nbytes, sampleMatrix "l000.w2" 32 nbytes,
   sampleMatrix "l000.w3" 32 nbytes]

def sampleImage (vocab seqLen nbytes payload : Nat) : List UInt8 :=
  image (sampleHeader vocab seqLen (960 + payload)) (sampleEntries vocab nbytes)
    (List.replicate payload 0)

section Sample
variable {vocab seqLen fileBytes nbytes : Nat}

theorem sampleHeader_inRange (hvocab : vocab < 2 ^ 31) (hseq : seqLen < 2 ^ 31)
    (hbytes : fileBytes < 2 ^ 64) : (sampleHeader vocab seqLen fileBytes).InRange := by
  constructor
  · intro f hf
    simp only [TqHeader.fields, sampleHeader, List.mem_cons, List.not_mem_nil, or_false] at hf
    rcases hf with
      rfl | rfl | rfl | rfl | rfl | rfl | rfl | rfl | rfl | rfl | rfl | rfl | rfl | rfl | rfl |
      rfl | rfl | rfl | rfl | rfl | rfl | rfl | rfl
    all_goals first | exact hbytes | exact ofInt32_lt vocab | exact ofInt32_lt seqLen | decide
  · intro i hi
    simp only [TqHeader.dims, sampleHeader, List.mem_cons, List.not_mem_nil, or_false] at hi
    rcases hi with rfl | rfl | rfl | rfl | rfl | rfl | rfl <;> omega

theorem sampleVector_inRange {name : String} (hname : (nameField name).length = tqNameBytes)
    (hnbytes : nbytes < 2 ^ 64) : (sampleVector name nbytes).InRange := by
  refine ⟨hname, fun f hf => ?_⟩
  simp only [TqTensorEntry.fields, sampleVector, List.mem_cons, List.not_mem_nil, or_false] at hf
  rcases hf with rfl | rfl | rfl | rfl | rfl | rfl | rfl | rfl
  all_goals first | exact hnbytes | decide

theorem sampleMatrix_inRange {name : String} {rows : Nat}
    (hname : (nameField name).length = tqNameBytes) (hrows : rows < 2 ^ 32)
    (hnbytes : nbytes < 2 ^ 64) : (sampleMatrix name rows nbytes).InRange := by
  refine ⟨hname, fun f hf => ?_⟩
  simp only [TqTensorEntry.fields, sampleMatrix, List.mem_cons, List.not_mem_nil, or_false] at hf
  rcases hf with rfl | rfl | rfl | rfl | rfl | rfl | rfl | rfl
  all_goals first | exact hnbytes | exact hrows | decide

theorem sampleEntries_inRange (hvocab : vocab < 2 ^ 31) (hnbytes : nbytes < 2 ^ 64) :
    ∀ e ∈ sampleEntries vocab nbytes, e.InRange := by
  have hvector := fun name hname => @sampleVector_inRange nbytes name hname hnbytes
  have hmatrix := fun name hname => @sampleMatrix_inRange nbytes name 32 hname (by decide) hnbytes
  intro e he
  simp only [sampleEntries, List.mem_cons, List.not_mem_nil, or_false] at he
  rcases he with rfl | rfl | rfl | rfl | rfl | rfl | rfl | rfl | rfl | rfl | rfl
  · exact sampleMatrix_inRange (by decide) (by omega) hnbytes
  all_goals first | exact hvector _ (by decide) | exact hmatrix _ (by decide)

theorem sample_describes (hvocab : vocab < 2 ^ 31) (hseq : seqLen < 2 ^ 31)
    (hbytes : fileBytes < 2 ^ 64) (hnbytes : nbytes < 2 ^ 64) :
    Describes (sampleHeader vocab seqLen fileBytes) (sampleEntries vocab nbytes) :=
  ⟨sampleHeader_inRange hvocab hseq hbytes, sampleEntries_inRange hvocab hnbytes, rfl, rfl⟩

end Sample

/-- The sample opens when its entries declare nothing and no data follows. -/
theorem bareSample_opens : ∃ m, (tqModelOpen (tqStoreInitMapped (sampleImage 60 4 0 0) 960)
    ⟨0, 1000, 2 ^ 64⟩).exec ⟨0, []⟩ = (.ok m, ⟨0, []⟩) := by
  have hdesc : Describes (sampleHeader 60 4 960) (sampleEntries 60 0) :=
    sample_describes (by decide) (by decide) (by decide) (by decide)
  exact open_image hdesc (by decide) (by decide) (by decide) (by decide +kernel) ⟨0, []⟩

/-- And with the data of its largest tensor behind it. -/
theorem sample_opens : ∃ m, (tqModelOpen (tqStoreInitMapped (sampleImage 60 4 0 1080) 2040)
    ⟨0, 1000, 2 ^ 64⟩).exec ⟨0, []⟩ = (.ok m, ⟨0, []⟩) := by
  have hdesc : Describes (sampleHeader 60 4 2040) (sampleEntries 60 0) :=
    sample_describes (by decide) (by decide) (by decide) (by decide)
  exact open_image hdesc (by decide) (by decide) (by decide) (by decide +kernel) ⟨0, []⟩

end TinyLlm
