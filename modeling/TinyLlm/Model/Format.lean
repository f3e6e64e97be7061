/-
# `TinyLlm.Model.Format` — the `.etq` container, `tq_format.h`

The header and the directory entry as they lie in the file, little-endian:

  header   256 bytes, 96 of them fields, the rest reserved
  entry     64 bytes: name[24], dtype, ndim, shape[4], offset, nbytes

An unsigned field is a natural number below its width, a signed one an integer,
a float its bits.  `decode` is what a C cast of the bytes to the struct reads.
-/
import TinyLlm.Kernels.Block

namespace TinyLlm

open Bytes

/-- The bytes of an ASCII literal. -/
def ascii (s : String) : List UInt8 := s.toList.map fun c => UInt8.ofNat c.toNat

/-- A C string: the bytes up to the first NUL. -/
def cstr (bs : List UInt8) : List UInt8 := bs.takeWhile (· ≠ 0)

/-- Two's complement. -/
def toInt32 (v : Nat) : Int := if v < 2 ^ 31 then v else v - 2 ^ 32

def tqMagic : Nat := 0x31515445

def tqVersion : Nat := 1

def tqHeaderBytes : Nat := 256

def tqEntryBytes : Nat := 64

def tqAlign : Nat := 64

def tqNameBytes : Nat := 24

def tqArchLlama2 : Nat := 0

structure TqHeader where
  magic : Nat
  version : Nat
  headerBytes : Nat
  arch : Nat
  tensorCount : Nat
  tensorTableOffset : Nat
  dataOffset : Nat
  flags : Nat
  fileBytes : Nat
  dim : Int
  hiddenDim : Int
  nLayers : Int
  nHeads : Int
  nKvHeads : Int
  vocabSize : Int
  seqLen : Int
  qtype : Nat
  groupSize : Nat
  sharedClassifier : Nat
  ropeTheta : Nat
  normEps : Nat
  bosToken : Nat
  eosToken : Nat
deriving DecidableEq, Repr

def TqHeader.decode (bs : List UInt8) : TqHeader where
  magic := leAt bs 0 4
  version := leAt bs 4 4
  headerBytes := leAt bs 8 4
  arch := leAt bs 12 4
  tensorCount := leAt bs 16 4
  tensorTableOffset := leAt bs 20 4
  dataOffset := leAt bs 24 4
  flags := leAt bs 28 4
  fileBytes := leAt bs 32 8
  dim := toInt32 (leAt bs 40 4)
  hiddenDim := toInt32 (leAt bs 44 4)
  nLayers := toInt32 (leAt bs 48 4)
  nHeads := toInt32 (leAt bs 52 4)
  nKvHeads := toInt32 (leAt bs 56 4)
  vocabSize := toInt32 (leAt bs 60 4)
  seqLen := toInt32 (leAt bs 64 4)
  qtype := leAt bs 68 4
  groupSize := leAt bs 72 4
  sharedClassifier := leAt bs 76 4
  ropeTheta := leAt bs 80 4
  normEps := leAt bs 84 4
  bosToken := leAt bs 88 4
  eosToken := leAt bs 92 4

structure TqTensorEntry where
  name : List UInt8
  dtype : Nat
  ndim : Nat
  shape0 : Nat
  shape1 : Nat
  shape2 : Nat
  shape3 : Nat
  offset : Nat
  nbytes : Nat
deriving DecidableEq, Repr

/-- The entry whose 64 bytes start at `at`. -/
def TqTensorEntry.decode (bs : List UInt8) (at_ : Nat) : TqTensorEntry where
  name := slice bs at_ tqNameBytes
  dtype := leAt bs (at_ + 24) 4
  ndim := leAt bs (at_ + 28) 4
  shape0 := leAt bs (at_ + 32) 4
  shape1 := leAt bs (at_ + 36) 4
  shape2 := leAt bs (at_ + 40) 4
  shape3 := leAt bs (at_ + 44) 4
  offset := leAt bs (at_ + 48) 8
  nbytes := leAt bs (at_ + 56) 8

/-- What an entry says is in its own 64 bytes. -/
theorem TqTensorEntry.decode_slice {bs : List UInt8} {a at_ n : Nat} (h : at_ + tqEntryBytes ≤ n) :
    TqTensorEntry.decode (slice bs a n) at_ = TqTensorEntry.decode bs (a + at_) := by
  have hin : ∀ i w, i + w ≤ 64 → at_ + i + w ≤ n := fun i w hiw => by
    unfold tqEntryBytes at h
    omega
  unfold decode
  rw [leAt_slice (hin 24 4 (by decide)), leAt_slice (hin 28 4 (by decide)),
    leAt_slice (hin 32 4 (by decide)), leAt_slice (hin 36 4 (by decide)),
    leAt_slice (hin 40 4 (by decide)), leAt_slice (hin 44 4 (by decide)),
    leAt_slice (hin 48 8 (by decide)), leAt_slice (hin 56 8 (by decide)), tqNameBytes,
    slice_slice (show at_ + 24 ≤ n from hin 0 24 (by decide))]
  simp only [Nat.add_assoc]

/-- What a header says is in the first 256 bytes. -/
theorem TqHeader.decode_slice (bs : List UInt8) :
    TqHeader.decode (slice bs 0 tqHeaderBytes) = TqHeader.decode bs := by
  unfold decode tqHeaderBytes
  simp (disch := decide) only [leAt_slice, Nat.zero_add]

/-! ## Models -/

/-- The nine tensors of a layer. -/
inductive TqLayerSlot where
  | rmsAtt
  | rmsFfn
  | wq
  | wk
  | wv
  | wo
  | w1
  | w2
  | w3
deriving DecidableEq, Repr

/-- Where the tensors of one layer lie; zero is nowhere. -/
abbrev TqLayerOffsets : Type := TqLayerSlot → Nat

structure TqModel where
  hdr : TqHeader
  dim : Nat
  hiddenDim : Nat
  nLayers : Nat
  nHeads : Nat
  nKvHeads : Nat
  vocabSize : Nat
  seqLen : Nat
  headSize : Nat
  kvDim : Nat
  kvMul : Nat
  qtype : Nat
  tokEmb : Nat
  rmsFinal : Nat
  classifier : Nat
  layers : Nat → TqLayerOffsets
  tokScores : Nat
  tokOffs : Nat
  tokBlob : Nat
  tokSorted : Nat
  tokBlobBytes : Nat

namespace TqLayerSlot

/-- In the order in which `tq_model_open` tries them. -/
def all : List TqLayerSlot := [rmsAtt, rmsFfn, wq, wk, wv, wo, w1, w2, w3]

theorem mem_all (s : TqLayerSlot) : s ∈ all := by cases s <;> decide

/-- The name after `lNNN.`. -/
def suffix : TqLayerSlot → List UInt8
  | rmsAtt => ascii "rms_att"
  | rmsFfn => ascii "rms_ffn"
  | wq => ascii "wq"
  | wk => ascii "wk"
  | wv => ascii "wv"
  | wo => ascii "wo"
  | w1 => ascii "w1"
  | w2 => ascii "w2"
  | w3 => ascii "w3"

variable (m : TqModel)

/-- `want_dt`. -/
def dtype : TqLayerSlot → Nat
  | rmsAtt => tqDtF32
  | rmsFfn => tqDtF32
  | _ => m.qtype

/-- `r`, the first dimension. -/
def rows : TqLayerSlot → Nat
  | rmsAtt => m.dim
  | rmsFfn => m.dim
  | wq => m.dim
  | wk => m.kvDim
  | wv => m.kvDim
  | wo => m.dim
  | w1 => m.hiddenDim
  | w2 => m.dim
  | w3 => m.hiddenDim

/-- `c`, the second dimension, zero for a vector. -/
def cols : TqLayerSlot → Nat
  | rmsAtt => 0
  | rmsFfn => 0
  | wq => m.dim
  | wk => m.dim
  | wv => m.dim
  | wo => m.dim
  | w1 => m.dim
  | w2 => m.hiddenDim
  | w3 => m.dim

end TqLayerSlot

end TinyLlm
