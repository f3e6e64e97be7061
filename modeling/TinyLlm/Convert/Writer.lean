/-
# `TinyLlm.Convert.Writer` — writing an `.etq` file

`format.py` and the end of `convert.py`.  A `Writer` collects tensors, each
with its payload, and lays them out behind the header and the directory, every
payload at a multiple of 64.  What it writes is an image in the sense of
`TinyLlm.Model.Image`, whose entries have the offsets of a bump allocator
(`Writer.write_image`).

What numpy computes with floats is a parameter: the bits of a float and the
values that a block is quantized to.
-/
import TinyLlm.Lib.Bump
import TinyLlm.Lib.NdArray
import TinyLlm.Model.Image
import TinyLlm.Tok.Piece

namespace TinyLlm

open Bytes Bump

/-! ## Errors and layouts -/

/-- What the exporter and the reader raise, with the values in the message. -/
inductive EtqError where
  | notBlocks (n : Nat)
  | badDtype (dtype : Nat)
  | notBlockDtype (dtype : Nat)
  | payload (name : List UInt8) (got want dtype : Nat) (shape : List Nat)
  | nameTooLong (name : List UInt8)
  | rank (name : List UInt8) (rank : Nat)
  | struct
  | overshot (cur target : Nat)
  | missing
  | notEtq
  | version (version : Nat)
deriving DecidableEq, Repr

/-- The format characters `I`, `i` and `Q` of `struct.pack`; a float `f` comes
as its bits. -/
inductive StructCode where
  | I
  | i
  | Q
deriving DecidableEq

def StructCode.width : StructCode → Nat
  | .I => 4
  | .i => 4
  | .Q => 8

/-- No value is negative. -/
def StructCode.limit : StructCode → Nat
  | .I => 2 ^ 32
  | .i => 2 ^ 31
  | .Q => 2 ^ 64

theorem StructCode.limit_le (c : StructCode) : c.limit ≤ 256 ^ c.width := by
  cases c <;> decide

theorem StructCode.le_limit {c : StructCode} (h : c ≠ .i) : 256 ^ c.width ≤ c.limit := by
  cases c with
  | I => decide
  | i => exact absurd rfl h
  | Q => decide

def structPack (fields : List (StructCode × Nat)) : Except EtqError (List UInt8) :=
  if ∀ f ∈ fields, f.2 < f.1.limit then .ok (pack (fields.map fun f => (f.1.width, f.2)))
  else .error .struct

section Except
variable {ε α β : Type}

theorem bind_eq_ok {x : Except ε α} {f : α → Except ε β} {b : β} :
    x >>= f = .ok b ↔ ∃ a, x = .ok a ∧ f a = .ok b := by
  cases x with
  | error e => exact ⟨nofun, nofun⟩
  | ok a => exact ⟨fun h => ⟨a, rfl, h⟩, fun ⟨_, ha, h⟩ => by cases ha; exact h⟩

theorem map_eq_ok {x : Except ε α} {f : α → β} {b : β} :
    x.map f = .ok b ↔ ∃ a, x = .ok a ∧ f a = b := by
  cases x with
  | error e => exact ⟨nofun, nofun⟩
  | ok a => exact ⟨fun h => ⟨a, rfl, by cases h; rfl⟩,
    fun ⟨_, ha, h⟩ => by cases ha; exact congrArg _ h⟩

end Except

theorem structPack_ok {fields : List (StructCode × Nat)} {bs : List UInt8}
    (h : structPack fields = .ok bs) :
    (∀ f ∈ fields, f.2 < f.1.limit) ∧ bs = pack (fields.map fun f => (f.1.width, f.2)) := by
  unfold structPack at h
  split at h
  · next hin =>
      cases h
      exact ⟨hin, rfl⟩
  · cases h

theorem structPack_total {fields : List (StructCode × Nat)} (h : ∀ f ∈ fields, f.2 < f.1.limit) :
    structPack fields = .ok (pack (fields.map fun f => (f.1.width, f.2))) := if_pos h

/-- `24s`. -/
def packName (name : List UInt8) : List UInt8 :=
  name.take tqNameBytes ++ List.replicate (tqNameBytes - name.length) 0

theorem length_packName (name : List UInt8) : (packName name).length = tqNameBytes := by
  rw [packName, List.length_append, List.length_take, List.length_replicate]
  omega

/-! ## Tensors -/

namespace Etq

/-- `dtype_nbytes`. -/
def dtypeNbytes (dtype n : Nat) : Except EtqError Nat :=
  if dtype = tqDtF32 ∨ dtype = tqDtU32 then .ok (n * 4)
  else if dtype = tqDtU8 then .ok n
  else if dtype = tqDtQ80 then
    if n % tqGroupSize ≠ 0 then .error (.notBlocks n) else .ok (n / tqGroupSize * 34)
  else if dtype = tqDtQ40 then
    if n % tqGroupSize ≠ 0 then .error (.notBlocks n) else .ok (n / tqGroupSize * 18)
  else .error (.badDtype dtype)

structure Tensor where
  name : List UInt8
  dtype : Nat
  shape : List Nat
  payload : List UInt8

/-- `Tensor(..)`, with the checks of `__post_init__`. -/
def Tensor.new (name : List UInt8) (dtype : Nat) (shape : List Nat) (payload : List UInt8) :
    Except EtqError Tensor :=
  if name.length ≥ tqNameBytes then .error (.nameTooLong name)
  else if shape.length > 4 then .error (.rank name shape.length)
  else .ok ⟨name, dtype, shape, payload⟩

/-- `Config`; `R` is what the floats of Python are. -/
structure Config (R : Type) where
  dim : Nat
  hiddenDim : Nat
  nLayers : Nat
  nHeads : Nat
  nKvHeads : Nat
  vocabSize : Nat
  seqLen : Nat
  qtype : Nat
  sharedClassifier : Nat
  ropeTheta : R
  normEps : R
  bosToken : Nat
  eosToken : Nat

def Config.headSize {R : Type} (c : Config R) : Nat := c.dim / c.nHeads

def Config.kvDim {R : Type} (c : Config R) : Nat := c.headSize * c.nKvHeads

/-- `Writer.add`. -/
def add (tensors : List Tensor) (name : List UInt8) (dtype : Nat) (shape : List Nat)
    (payload : List UInt8) : Except EtqError (List Tensor) := do
  let want ← dtypeNbytes dtype shape.prod
  if payload.length ≠ want then .error (.payload name payload.length want dtype shape)
  else
    let t ← Tensor.new name dtype shape payload
    .ok (tensors ++ [t])

/-! ## The file -/

/-- `_align`. -/
def align (v : Nat) : Nat :=
  let x := v + tqAlign - 1
  x - x % tqAlign

theorem align_eq (v : Nat) : align v = roundUp tqAlign v :=
  (roundUp_eq (a := tqAlign) (by decide) v).symm

/-- `_pad_to`. -/
def padTo (fp : List UInt8) (target : Nat) : Except EtqError (List UInt8) :=
  if fp.length > target then .error (.overshot fp.length target)
  else .ok (fp ++ List.replicate (target - fp.length) 0)

/-- What an entry holds behind the name. -/
def Tensor.fields (t : Tensor) (off : Nat) : List (StructCode × Nat) :=
  [(.I, t.dtype), (.I, t.shape.length), (.I, t.shape.getD 0 0), (.I, t.shape.getD 1 0),
   (.I, t.shape.getD 2 0), (.I, t.shape.getD 3 0), (.Q, off), (.Q, t.payload.length)]

/-- `struct.pack(_ENT, ..)` for a tensor at an offset. -/
def packEntry (t : Tensor) (off : Nat) : Except EtqError (List UInt8) :=
  (structPack (t.fields off)).map (packName t.name ++ ·)

/-- The first loop of `write`: the entries, and where the file ends. -/
def packEntries : Nat → List Tensor → Except EtqError (List (List UInt8) × Nat)
  | off, [] => .ok ([], off)
  | off, t :: ts => do
      let e ← packEntry t off
      let (es, total) ← packEntries (align (off + t.payload.length)) ts
      .ok (e :: es, total)

/-- The second loop: the payloads, each at the offset in its entry. -/
def writePayloads : List UInt8 → List (Tensor × List UInt8) → Except EtqError (List UInt8)
  | fp, [] => .ok fp
  | fp, (t, e) :: rest => do
      let fp ← padTo fp (leAt e 48 8)
      writePayloads (fp ++ t.payload) rest

/-- What the header holds. -/
def Config.fields {R : Type} (f32 : R → UInt32) (c : Config R)
    (count tableOff dataOff total : Nat) :
    List (StructCode × Nat) :=
  [(.I, tqMagic), (.I, tqVersion), (.I, tqHeaderBytes), (.I, tqArchLlama2),
   (.I, count), (.I, tableOff), (.I, dataOff), (.I, 0), (.Q, total),
   (.i, c.dim), (.i, c.hiddenDim), (.i, c.nLayers), (.i, c.nHeads), (.i, c.nKvHeads),
   (.i, c.vocabSize), (.i, c.seqLen), (.I, c.qtype), (.I, tqGroupSize), (.I, c.sharedClassifier),
   (.I, (f32 c.ropeTheta).toNat), (.I, (f32 c.normEps).toNat), (.I, c.bosToken), (.I, c.eosToken)]

/-- `Writer.write`. -/
def write {R : Type} (f32 : R → UInt32) (c : Config R) (tensors : List Tensor) :
    Except EtqError (List UInt8) := do
  let tableOff := tqHeaderBytes
  let tableBytes := 64 * tensors.length
  let dataOff := align (tableOff + tableBytes)
  let (entries, total) ← packEntries dataOff tensors
  let hdr ← structPack (c.fields f32 tensors.length tableOff dataOff total)
  let fp := hdr ++ List.replicate (tqHeaderBytes - 96) 0 ++ entries.flatten
  let fp ← padTo fp dataOff
  let fp ← writePayloads fp (tensors.zip entries)
  padTo fp total

/-! ## The tensors of a model -/

/-- What numpy does with the floats of `F`: the bits of one, the scale of a
block and the values that it is quantized to, against that scale. -/
structure Numpy (F : Type) where
  bits : F → UInt32
  scaleQ80 : (Nat → F) → UInt16
  valueQ80 : UInt16 → F → UInt8
  scaleQ40 : (Nat → F) → UInt16
  valueQ40 : UInt16 → F → UInt8

section Emit
variable {F : Type} (np : Numpy F)

/-- `arr.tobytes()`. -/
def tobytes (w : NdArray F) : List UInt8 :=
  (List.range w.shape.prod).flatMap fun k => toLE 4 (np.bits (w.data k)).toNat

/-- One row of `quantize_q8_0`. -/
def blockQ80 (b : Nat → F) : List UInt8 :=
  toLE 2 (np.scaleQ80 b).toNat ++ (List.range 32).map fun i => np.valueQ80 (np.scaleQ80 b) (b i)

/-- One row of `quantize_q4_0`: the halves in the low and the high nibbles. -/
def blockQ40 (b : Nat → F) : List UInt8 :=
  toLE 2 (np.scaleQ40 b).toNat ++ (List.range 16).map fun j =>
    np.valueQ40 (np.scaleQ40 b) (b j) ||| (np.valueQ40 (np.scaleQ40 b) (b (j + 16))) <<< 4

/-- `_blocks`, and the rows quantized one by one. -/
def blocks (w : NdArray F) (row : (Nat → F) → List UInt8) : Except EtqError (List UInt8) :=
  if w.shape.prod % tqGroupSize ≠ 0 then .error (.notBlocks w.shape.prod)
  else .ok ((List.range (w.shape.prod / tqGroupSize)).flatMap fun k =>
    row fun i => w.data (k * tqGroupSize + i))

def quantize (w : NdArray F) (dtype : Nat) : Except EtqError (List UInt8) :=
  if dtype = tqDtQ80 then blocks w (blockQ80 np)
  else if dtype = tqDtQ40 then blocks w (blockQ40 np)
  else .error (.notBlockDtype dtype)

def emit (ts : List Tensor) (name : List UInt8) (arr : NdArray F) (qtype : Nat) :
    Except EtqError (List Tensor) := do
  let payload ← quantize np arr qtype
  add ts name qtype arr.shape payload

def emitF32 (ts : List Tensor) (name : List UInt8) (arr : NdArray F) :
    Except EtqError (List Tensor) :=
  add ts name tqDtF32 arr.shape (tobytes np arr)

/-- `f"{l:03d}"`. -/
def decimal03 (l : Nat) : List UInt8 :=
  if l < 1000 then [UInt8.ofNat (48 + l / 100), UInt8.ofNat (48 + l / 10 % 10),
    UInt8.ofNat (48 + l % 10)]
  else ascii (Nat.repr l)

/-- `f"l{l:03d}.{t}"`. -/
def layerName (l : Nat) (s : TqLayerSlot) : List UInt8 :=
  ascii "l" ++ decimal03 l ++ ascii "." ++ s.suffix

/-- The arrays of a model, in device layout. -/
structure Weights (F : Type) where
  tokEmb : NdArray F
  rmsFinal : NdArray F
  cls : Option (NdArray F)
  layers : Nat → TqLayerSlot → NdArray F

/-- The tensors of one layer. -/
def emitLayer (qt : Nat) (w : Weights F) (ts : List Tensor) (l : Nat) :
    Except EtqError (List Tensor) := do
  let ts ← emitF32 np ts (layerName l .rmsAtt) (w.layers l .rmsAtt)
  let ts ← emitF32 np ts (layerName l .rmsFfn) (w.layers l .rmsFfn)
  [TqLayerSlot.wq, .wk, .wv, .wo, .w1, .w2, .w3].foldlM
    (fun ts s => emit np ts (layerName l s) (w.layers l s) qt) ts

/-- `np.cumsum` of the lengths, behind a zero, as unsigned words. -/
def cumsum (pieces : List (List UInt8)) : List Nat :=
  (List.range (pieces.length + 1)).map fun i => (pieces.take i).flatten.length % 2 ^ 32

def addTokenizer (ts : List Tensor) (pieces : List (List UInt8)) (scores : NdArray F) :
    Except EtqError (List Tensor) := do
  let ts ← add ts (ascii "tok.scores") tqDtF32 [pieces.length] (tobytes np scores)
  let ts ← add ts (ascii "tok.offs") tqDtU32 [pieces.length + 1] ((cumsum pieces).flatMap (toLE 4))
  let ts ← add ts (ascii "tok.blob") tqDtU8 [pieces.flatten.length] pieces.flatten
  add ts (ascii "tok.sorted") tqDtU32 [pieces.length] ((buildSorted pieces).flatMap (toLE 4))

/-- The classifier, unless it is shared. -/
def emitCls {R : Type} (c : Config R) (w : Weights F) (ts : List Tensor) :
    Except EtqError (List Tensor) :=
  if c.sharedClassifier = 0 then
    match w.cls with
    | some cls => emit np ts (ascii "cls") cls c.qtype
    | none => .error .missing
  else .ok ts

/-- The tensors that `write_model` adds. -/
def modelTensors {R : Type} (c : Config R) (w : Weights F)
    (tok : Option (List (List UInt8) × NdArray F)) : Except EtqError (List Tensor) := do
  let ts ← emit np [] (ascii "tok_emb") w.tokEmb c.qtype
  let ts ← emitF32 np ts (ascii "rms_final") w.rmsFinal
  let ts ← emitCls np c w ts
  let ts ← (List.range c.nLayers).foldlM (emitLayer np c.qtype w) ts
  match tok with
  | some (pieces, scores) => addTokenizer np ts pieces scores
  | none => .ok ts

/-- `write_model`. -/
def writeModel {R : Type} (f32 : R → UInt32) (c : Config R) (w : Weights F)
    (tok : Option (List (List UInt8) × NdArray F)) : Except EtqError (List UInt8) := do
  let ts ← modelTensors np c w tok
  write f32 c ts

end Emit

/-! ## What was written -/

/-- The directory entry of a tensor at an offset. -/
def Tensor.entry (t : Tensor) (off : Nat) : TqTensorEntry where
  name := packName t.name
  dtype := t.dtype
  ndim := t.shape.length
  shape0 := t.shape.getD 0 0
  shape1 := t.shape.getD 1 0
  shape2 := t.shape.getD 2 0
  shape3 := t.shape.getD 3 0
  offset := off
  nbytes := t.payload.length

/-- A payload as an item of a bump allocator. -/
def Tensor.item (t : Tensor) : Nat × Nat := (tqAlign, t.payload.length)

/-- Entries for tensors that are placed from `s` on. -/
def entriesFrom (s : Nat) (ts : List Tensor) : List TqTensorEntry :=
  List.zipWith (fun t r => t.entry r.start) ts (place s (ts.map Tensor.item))

/-- The end of the directory. -/
def tableEnd (ts : List Tensor) : Nat := tqHeaderBytes + 64 * ts.length

/-- Where the payloads are. -/
def regions (ts : List Tensor) : List Region := place (tableEnd ts) (ts.map Tensor.item)

def entries (ts : List Tensor) : List TqTensorEntry := entriesFrom (tableEnd ts) ts

def total (ts : List Tensor) : Nat := align (top (tableEnd ts) (ts.map Tensor.item))

/-- The header that describes the tensors. -/
def Config.header {R : Type} (f32 : R → UInt32) (c : Config R) (ts : List Tensor) : TqHeader where
  magic := tqMagic
  version := tqVersion
  headerBytes := tqHeaderBytes
  arch := tqArchLlama2
  tensorCount := ts.length
  tensorTableOffset := tqHeaderBytes
  dataOffset := align (tableEnd ts)
  flags := 0
  fileBytes := total ts
  dim := c.dim
  hiddenDim := c.hiddenDim
  nLayers := c.nLayers
  nHeads := c.nHeads
  nKvHeads := c.nKvHeads
  vocabSize := c.vocabSize
  seqLen := c.seqLen
  qtype := c.qtype
  groupSize := tqGroupSize
  sharedClassifier := c.sharedClassifier
  ropeTheta := (f32 c.ropeTheta).toNat
  normEps := (f32 c.normEps).toNat
  bosToken := c.bosToken
  eosToken := c.eosToken

/-- `payload` lies in the file at `off`. -/
def LiesAt (file : List UInt8) (off : Nat) (payload : List UInt8) : Prop :=
  ∃ pre post, file = pre ++ payload ++ post ∧ pre.length = off

theorem LiesAt.slice {file payload : List UInt8} {off : Nat} (h : LiesAt file off payload) :
    Bytes.slice file off payload.length = payload := by
  obtain ⟨pre, post, rfl, rfl⟩ := h
  rw [List.append_assoc, slice_append_right (Nat.le_refl _), Nat.sub_self,
    slice_append_left (by omega), slice_zero rfl]

theorem LiesAt.append {file payload : List UInt8} {off : Nat} (h : LiesAt file off payload)
    (more : List UInt8) : LiesAt (file ++ more) off payload := by
  obtain ⟨pre, post, rfl, hpre⟩ := h
  exact ⟨pre, post ++ more, List.append_assoc _ _ _, hpre⟩

theorem padTo_ok {fp file : List UInt8} {target : Nat} (h : padTo fp target = .ok file) :
    file.length = target ∧ ∃ zeros, file = fp ++ zeros := by
  unfold padTo at h
  split at h
  · cases h
  · next hle =>
      cases h
      refine ⟨?_, _, rfl⟩
      rw [List.length_append, List.length_replicate]
      omega

theorem entry_fields (t : Tensor) (off : Nat) :
    (t.entry off).fields = (t.fields off).map fun f => (f.1.width, f.2) := rfl

theorem packEntry_ok {t : Tensor} {off : Nat} {e : List UInt8} (h : packEntry t off = .ok e) :
    (t.entry off).InRange ∧ e = (t.entry off).encode := by
  obtain ⟨fields, hs, rfl⟩ := map_eq_ok.mp h
  obtain ⟨hin, rfl⟩ := structPack_ok hs
  refine ⟨⟨length_packName _, fun f hf => ?_⟩, rfl⟩
  rw [entry_fields] at hf
  obtain ⟨⟨c, v⟩, hc, rfl⟩ := List.mem_map.mp hf
  exact (hin _ hc).trans_le c.limit_le

/-- The entries are packed as the allocator places the payloads. -/
theorem packEntries_ok : ∀ {ts : List Tensor} {s n : Nat} {es : List (List UInt8)},
    packEntries (align s) ts = .ok (es, n) →
      (∀ e ∈ entriesFrom s ts, e.InRange) ∧ es = (entriesFrom s ts).map TqTensorEntry.encode ∧
        n = align (top s (ts.map Tensor.item))
  | [], s, n, es, h => by
      cases h
      exact ⟨nofun, rfl, rfl⟩
  | t :: ts, s, n, es, h => by
      unfold packEntries at h
      obtain ⟨e, he, h⟩ := bind_eq_ok.mp h
      obtain ⟨⟨es', n'⟩, hrest, h⟩ := bind_eq_ok.mp h
      cases h
      obtain ⟨hin, rfl⟩ := packEntry_ok he
      obtain ⟨hins, rfl, rfl⟩ := packEntries_ok hrest
      rw [align_eq s] at hin hins ⊢
      refine ⟨fun e he => ?_, rfl, rfl⟩
      rcases List.mem_cons.mp he with rfl | he
      · exact hin
      · exact hins e he

/-- The offset that an entry was packed with is read back from it. -/
theorem leAt_entry {t : Tensor} {off : Nat} (h : (t.entry off).InRange) :
    leAt (t.entry off).encode 48 8 = off := by
  have hread := congrArg TqTensorEntry.offset (TqTensorEntry.decode_encode h [] [])
  rw [List.nil_append, List.append_nil] at hread
  exact hread

/-- The payloads are written where the entries say. -/
theorem writePayloads_ok : ∀ {ts : List Tensor} {s : Nat} {fp file : List UInt8},
    (∀ e ∈ entriesFrom s ts, e.InRange) → fp.length ≤ align s →
      writePayloads fp (ts.zip ((entriesFrom s ts).map TqTensorEntry.encode)) = .ok file →
        (∃ data, file = fp ++ data) ∧ file.length ≤ align (top s (ts.map Tensor.item)) ∧
          ∀ p ∈ ts.zip (place s (ts.map Tensor.item)), LiesAt file p.2.start p.1.payload
  | [], s, fp, file, _, hlen, h => by
      cases h
      exact ⟨⟨[], (List.append_nil fp).symm⟩, hlen, nofun⟩
  | t :: ts, s, fp, file, hin, hlen, h => by
      have he : (t.entry (align s)).InRange := by
        rw [align_eq]
        exact hin _ List.mem_cons_self
      have hcons : entriesFrom s (t :: ts) =
          t.entry (align s) :: entriesFrom (align s + t.payload.length) ts := by
        rw [align_eq]
        rfl
      rw [hcons, List.map_cons, List.zip_cons_cons, writePayloads, leAt_entry he] at h
      obtain ⟨fp', hpad, hrest⟩ := bind_eq_ok.mp h
      obtain ⟨hlen', zeros, rfl⟩ := padTo_ok hpad
      have hnext : (fp ++ zeros ++ t.payload).length = align s + t.payload.length := by
        rw [List.length_append, hlen']
      have hle : align s + t.payload.length ≤ align (align s + t.payload.length) := by
        rw [align_eq (align s + t.payload.length)]
        exact le_roundUp _ _
      obtain ⟨⟨data, rfl⟩, htop, hall⟩ := writePayloads_ok
        (fun e he => hin e (hcons ▸ List.mem_cons_of_mem _ he)) (hnext.trans_le hle) hrest
      rw [align_eq s] at htop hall
      refine ⟨⟨zeros ++ (t.payload ++ data), by simp only [List.append_assoc]⟩, htop,
        fun p hp => ?_⟩
      rcases List.mem_cons.mp hp with rfl | hp
      · exact ⟨fp ++ zeros, data, rfl, hlen'.trans (align_eq s)⟩
      · exact hall p hp

theorem header_fields {R : Type} (f32 : R → UInt32) (c : Config R) (ts : List Tensor)
    (hdims : ∀ n ∈ [c.dim, c.hiddenDim, c.nLayers, c.nHeads, c.nKvHeads, c.vocabSize, c.seqLen],
      n < 2 ^ 31) : (c.header f32 ts).fields =
      (c.fields f32 ts.length tqHeaderBytes (align (tableEnd ts)) (total ts)).map
        fun f => (f.1.width, f.2) := by
  have hof : ∀ n ∈ [c.dim, c.hiddenDim, c.nLayers, c.nHeads, c.nKvHeads, c.vocabSize, c.seqLen],
      ofInt32 (n : Int) = n := by
    intro n hn
    have := hdims n hn
    unfold ofInt32
    omega
  unfold TqHeader.fields Config.fields Config.header
  simp only [List.forall_mem_cons] at hof
  obtain ⟨h₁, h₂, h₃, h₄, h₅, h₆, h₇, -⟩ := hof
  dsimp only
  rw [h₁, h₂, h₃, h₄, h₅, h₆, h₇]
  rfl

/-- **The file** is an image: a header, the directory of the tensors, and data
in which every payload lies at the offset of its entry. -/
theorem write_image {R : Type} {f32 : R → UInt32} {c : Config R} {ts : List Tensor}
    {file : List UInt8} (h : write f32 c ts = .ok file) :
    ∃ data, file = image (c.header f32 ts) (entries ts) data ∧
      Describes (c.header f32 ts) (entries ts) ∧ file.length = total ts ∧
      ∀ p ∈ ts.zip (regions ts), LiesAt file p.2.start p.1.payload := by
  unfold write at h
  obtain ⟨⟨es, n⟩, hes, h⟩ := bind_eq_ok.mp h
  obtain ⟨hdr, hhdr, h⟩ := bind_eq_ok.mp h
  obtain ⟨fp, hpad, h⟩ := bind_eq_ok.mp h
  obtain ⟨out, hout, hlast⟩ := bind_eq_ok.mp h
  obtain ⟨hin, rfl, rfl⟩ := @packEntries_ok ts _ _ _ hes
  obtain ⟨hlimits, rfl⟩ := structPack_ok hhdr
  obtain ⟨hlen, zeros, rfl⟩ := padTo_ok hpad
  obtain ⟨⟨data, rfl⟩, -, hall⟩ := @writePayloads_ok ts _ _ _ hin hlen.le hout
  obtain ⟨htotal, more, rfl⟩ := padTo_ok hlast
  have hcount : (entries ts).length = ts.length := by
    unfold entries entriesFrom
    rw [List.length_zipWith, length_place, List.length_map, Nat.min_self]
  have hdims : ∀ n ∈ [c.dim, c.hiddenDim, c.nLayers, c.nHeads, c.nKvHeads, c.vocabSize, c.seqLen],
      n < 2 ^ 31 := by
    intro n hn
    refine hlimits (.i, n) ?_
    simp only [List.mem_cons, List.not_mem_nil, or_false] at hn
    rcases hn with rfl | rfl | rfl | rfl | rfl | rfl | rfl <;> simp [Config.fields]
  have hfields := header_fields f32 c ts hdims
  refine ⟨zeros ++ (data ++ more), ?_, ⟨⟨?_, ?_⟩, hin, rfl, hcount.symm⟩, htotal,
    fun p hp => (hall p hp).append more⟩
  · unfold image TqHeader.encode
    rw [hfields, List.flatMap_def]
    simp only [List.append_assoc]
    rfl
  · intro f hf
    rw [hfields] at hf
    obtain ⟨⟨code, v⟩, hc, rfl⟩ := List.mem_map.mp hf
    exact (hlimits _ hc).trans_le code.limit_le
  · intro i hi
    simp only [TqHeader.dims, Config.header, List.mem_cons, List.not_mem_nil, or_false] at hi
    simp only [List.forall_mem_cons] at hdims
    omega

end Etq

end TinyLlm
