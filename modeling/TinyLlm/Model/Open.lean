/-
# `TinyLlm.Model.Open` — `tq_model_open`

The header checks, the walk over the directory in chunks of 32 entries and the
checks at the end.  The walk keeps the want-list of the seven global tensors
and the table of layer offsets; what one entry does to them is `tqWalkEntry`.

Sizes of the caller's arena are `size_t`, whose width is a field of the arena:
the host has 64 bits, the board 32.  A `char` of a name is unsigned, as on the
board.
-/
import TinyLlm.Model.Store
import TinyLlm.Model.Format

namespace TinyLlm

open Bytes Relational

/-! ## The arena -/

/-- A caller's arena at an address, and the number of values of `size_t`. -/
structure TqArena where
  addr : Nat
  cap : Nat
  sizeMod : Nat

def tqAlignUp (sizeMod v a : Nat) : Nat :=
  let x := (v + a - 1) % sizeMod
  x - x % a

/-- The offset carved and the new `used`. -/
def tqCarve (arena : TqArena) (used bytes : Nat) : Option (Nat × Nat) :=
  let skew := arena.addr % 16
  let top := tqAlignUp arena.sizeMod ((used + skew) % arena.sizeMod) 16
  let off := (top + arena.sizeMod - skew) % arena.sizeMod
  if (off + bytes) % arena.sizeMod > arena.cap then none
  else some (off, (off + bytes) % arena.sizeMod)

/-- `sizeof(TqLayerOffsets)`. -/
def tqLayerOffsetsBytes : Nat := 72

/-! ## Names -/

/-- Compare a directory name with a C string. -/
def tqNameEq : List UInt8 → List UInt8 → Bool
  | [], _ => true
  | c :: _, [] => c = 0
  | c :: field, w :: want => if c ≠ w then false else if c = 0 then true else tqNameEq field want

/-- The number in `lNNN`, in unsigned arithmetic, with a `char` that is unsigned
as on the board. -/
def tqLayerNumber (name : List UInt8) : Nat :=
  let digit := fun i => ((name.getD i 0).toNat + (2 ^ 32 - 48)) % 2 ^ 32
  (digit 1 * 100 + digit 2 * 10 + digit 3) % 2 ^ 32

/-! ## The want-list -/

/-- A global tensor: what it must look like, and what was found.  `capture`
says that its payload size is kept. -/
structure TqWant where
  name : List UInt8
  dtype : Nat
  rows : Nat
  cols : Nat
  capture : Bool
  required : Bool
  found : Bool := false
  offset : Nat := 0
  nbytes : Nat := 0

/-- The shape check of `tq_match`: two dimensions, one, or none asked for. -/
def TqWant.shapeOk (w : TqWant) (e : TqTensorEntry) : Bool :=
  if w.cols ≠ 0 then e.ndim = 2 ∧ e.shape0 = w.rows ∧ e.shape1 = w.cols
  else if w.rows ≠ 0 then e.ndim = 1 ∧ e.shape0 = w.rows
  else true

def TqWant.take (w : TqWant) (e : TqTensorEntry) : TqWant :=
  { w with
    offset := e.offset
    nbytes := if w.capture then e.nbytes % 2 ^ 32 else w.nbytes
    found := true }

def tqMatch : List TqWant → TqTensorEntry → Except TqStatus (List TqWant)
  | [], _ => .ok []
  | w :: ws, e =>
      if w.found ∨ ¬ tqNameEq e.name w.name then (tqMatch ws e).map (w :: ·)
      else if e.dtype ≠ w.dtype then .error .errShape
      else if ¬ w.shapeOk e then .error .errShape
      else .ok (w.take e :: ws)

/-- `want[7]`. -/
def tqWants (m : TqModel) : List TqWant :=
  [{ name := ascii "tok_emb", dtype := m.qtype, rows := m.vocabSize, cols := m.dim,
     capture := false, required := true },
   { name := ascii "rms_final", dtype := tqDtF32, rows := m.dim, cols := 0,
     capture := false, required := true },
   { name := ascii "cls", dtype := m.qtype, rows := m.vocabSize, cols := m.dim,
     capture := false, required := m.hdr.sharedClassifier = 0 },
   { name := ascii "tok.scores", dtype := tqDtF32, rows := m.vocabSize, cols := 0,
     capture := false, required := false },
   { name := ascii "tok.offs", dtype := tqDtU32, rows := m.vocabSize + 1, cols := 0,
     capture := false, required := false },
   { name := ascii "tok.blob", dtype := tqDtU8, rows := 0, cols := 0,
     capture := true, required := false },
   { name := ascii "tok.sorted", dtype := tqDtU32, rows := m.vocabSize, cols := 0,
     capture := false, required := false }]

/-! ## The walk -/

/-- What the walk over the directory keeps. -/
structure TqWalk where
  wants : List TqWant
  layers : Nat → TqLayerOffsets

/-- The layer tensor a name spells, if it does. -/
def tqLayerSlot (name : List UInt8) : Option TqLayerSlot :=
  TqLayerSlot.all.find? fun s => cstr (name.drop 5) = s.suffix

/-- The layer part of the walk, for one entry. -/
def tqWalkLayer (m : TqModel) (layers : Nat → TqLayerOffsets) (e : TqTensorEntry) :
    Except TqStatus (Nat → TqLayerOffsets) :=
  if e.name.getD 0 0 ≠ 108 ∨ e.name.getD 4 0 ≠ 46 then .ok layers
  else
    let layer := tqLayerNumber e.name
    if layer ≥ m.nLayers then .ok layers
    else
      match tqLayerSlot e.name with
      | none => .ok layers
      | some s =>
          if e.dtype ≠ s.dtype m then .error .errShape
          else if s.cols m ≠ 0 then
            if e.ndim ≠ 2 ∨ e.shape0 ≠ s.rows m ∨ e.shape1 ≠ s.cols m then .error .errShape
            else .ok (Function.update layers layer (Function.update (layers layer) s e.offset))
          else if e.ndim ≠ 1 ∨ e.shape0 ≠ s.rows m then .error .errShape
          else .ok (Function.update layers layer (Function.update (layers layer) s e.offset))

/-- One entry of the directory. -/
def tqWalkEntry (m : TqModel) (s : TqWalk) (e : TqTensorEntry) : Except TqStatus TqWalk :=
  if (e.offset + e.nbytes) % 2 ^ 64 > m.hdr.fileBytes then .error .errTruncated
  else if e.offset % tqAlign ≠ 0 then .error .errShape
  else do
    let wants ← tqMatch s.wants e
    let layers ← tqWalkLayer m s.layers e
    .ok ⟨wants, layers⟩

/-- `TQ_DIR_CHUNK`. -/
def tqDirChunk : Nat := 32

/-- The entries of a chunk. -/
def tqEntries (bs : List UInt8) (n : Nat) : List TqTensorEntry :=
  (List.range n).map fun k => TqTensorEntry.decode bs (k * tqEntryBytes)

/-- A pure step that returns a status when it fails. -/
def liftStatus {σ α : Type} : Except TqStatus α → Tq σ α
  | .ok a => pure a
  | .error rc => fail rc

/-- The loop over the directory from entry `idx` on; a chunk takes at least
one entry, so `tensor_count` rounds are enough. -/
def tqDirLoop (st : TqStore) (m : TqModel) : Nat → Nat → TqWalk → Tq TqTile TqWalk
  | 0, _, s => pure s
  | fuel + 1, idx, s =>
      if idx < m.hdr.tensorCount then do
        let take := min (m.hdr.tensorCount - idx) tqDirChunk
        let src ← viewOr st (m.hdr.tensorTableOffset + idx * tqEntryBytes) (take * tqEntryBytes)
          .errTruncated
        let dir ← deref src (take * tqEntryBytes)
        let s ← liftStatus ((tqEntries dir take).foldlM (tqWalkEntry m) s)
        tqDirLoop st m fuel (idx + take) s
      else pure s

/-! ## Opening -/

/-- The checks of the header, in order. -/
def tqCheckHeader (hdr : TqHeader) (storeBytes : Nat) : Except TqStatus Unit :=
  if hdr.magic ≠ tqMagic then .error .errMagic
  else if hdr.version ≠ tqVersion ∨ hdr.headerBytes ≠ tqHeaderBytes then .error .errVersion
  else if hdr.arch ≠ tqArchLlama2 then .error .errUnsupported
  else if hdr.qtype ≠ tqDtQ40 ∧ hdr.qtype ≠ tqDtQ80 then .error .errUnsupported
  else if hdr.groupSize ≠ tqGroupSize then .error .errUnsupported
  else if hdr.fileBytes > storeBytes then .error .errTruncated
  else if hdr.dim ≤ 0 ∨ hdr.nLayers ≤ 0 ∨ hdr.nHeads ≤ 0 ∨ hdr.nKvHeads ≤ 0 ∨
      hdr.vocabSize ≤ 0 ∨ hdr.seqLen ≤ 0 ∨ hdr.hiddenDim ≤ 0 then .error .errShape
  else if hdr.dim % hdr.nHeads ≠ 0 ∨ hdr.nHeads % hdr.nKvHeads ≠ 0 then .error .errShape
  else if hdr.dim % (tqGroupSize : Int) ≠ 0 ∨ hdr.hiddenDim % (tqGroupSize : Int) ≠ 0 then
    .error .errShape
  else .ok ()

/-- The model before the directory was walked: the dimensions of a header that
passed its checks, and no offset yet. -/
def tqModelDims (hdr : TqHeader) : TqModel where
  hdr := hdr
  dim := hdr.dim.toNat
  hiddenDim := hdr.hiddenDim.toNat
  nLayers := hdr.nLayers.toNat
  nHeads := hdr.nHeads.toNat
  nKvHeads := hdr.nKvHeads.toNat
  vocabSize := hdr.vocabSize.toNat
  seqLen := hdr.seqLen.toNat
  qtype := hdr.qtype
  headSize := hdr.dim.toNat / hdr.nHeads.toNat
  kvDim := hdr.dim.toNat / hdr.nHeads.toNat * hdr.nKvHeads.toNat
  kvMul := hdr.nHeads.toNat / hdr.nKvHeads.toNat
  tokEmb := 0
  rmsFinal := 0
  classifier := 0
  layers _ _ := 0
  tokScores := 0
  tokOffs := 0
  tokBlob := 0
  tokSorted := 0
  tokBlobBytes := 0

/-- The offset a want stored, which is zero if it was not found. -/
def TqWalk.offsetOf (s : TqWalk) (i : Nat) : Nat := (s.wants[i]?).elim 0 TqWant.offset

/-- The model with the offsets that the walk resolved. -/
def tqResolve (m : TqModel) (s : TqWalk) : TqModel :=
  { m with
    tokEmb := s.offsetOf 0
    rmsFinal := s.offsetOf 1
    classifier := if m.hdr.sharedClassifier ≠ 0 then s.offsetOf 0 else s.offsetOf 2
    tokScores := s.offsetOf 3
    tokOffs := s.offsetOf 4
    tokBlob := s.offsetOf 5
    tokSorted := s.offsetOf 6
    tokBlobBytes := (s.wants[5]?).elim 0 TqWant.nbytes
    layers := s.layers }

/-- The checks after the walk: required globals and every tensor of every layer. -/
def tqCheckFound (m : TqModel) (s : TqWalk) : Except TqStatus Unit :=
  if s.wants.any fun w => w.required && !w.found then .error .errMissing
  else if (List.range m.nLayers).any fun l => TqLayerSlot.all.any fun t => s.layers l t = 0 then
    .error .errMissing
  else .ok ()

def tqModelOpen (st : TqStore) (arena : TqArena) : Tq TqTile TqModel := do
  let view ← viewOr st 0 tqHeaderBytes .errTruncated
  let bs ← deref view tqHeaderBytes
  let hdr := TqHeader.decode bs
  liftStatus (tqCheckHeader hdr st.bytes.toNat)
  let m := tqModelDims hdr
  match tqCarve arena 0 (tqLayerOffsetsBytes * m.nLayers % arena.sizeMod) with
  | none => fail .errNomem
  | some _ =>
      let s ← tqDirLoop st m hdr.tensorCount 0 ⟨tqWants m, m.layers⟩
      liftStatus (tqCheckFound m s)
      pure (tqResolve m s)

end TinyLlm
