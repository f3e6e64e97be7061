/-
# `TinyLlm.Convert.Reader` — reading an `.etq` file back in Python

The `Reader` of `format.py`.  What a `Writer` wrote it reads back: the
configuration, its floats rounded to 32 bits, and the tensors in their order
(`read_write`).  A name is its bytes here; all names that are written are
ASCII.
-/
import TinyLlm.Convert.Tensors

namespace TinyLlm.Etq

open Bytes Bump

/-- The `Config` that a reader builds from the words of a header. -/
structure ReadConfig (R : Type) where
  dim : Int
  hiddenDim : Int
  nLayers : Int
  nHeads : Int
  nKvHeads : Int
  vocabSize : Int
  seqLen : Int
  qtype : Nat
  sharedClassifier : Nat
  ropeTheta : R
  normEps : R
  bosToken : Nat
  eosToken : Nat

structure Reader (R : Type) where
  arch : Nat
  tensorCount : Nat
  tableOff : Nat
  dataOff : Nat
  flags : Nat
  fileBytes : Nat
  cfg : ReadConfig R
  groupSize : Nat
  tensors : List Tensor

/-- `self.tensors[name]`: of two tensors of one name the dict has the second. -/
def Reader.get {R : Type} (r : Reader R) (name : List UInt8) : Option Tensor :=
  r.tensors.reverse.find? fun t => t.name = name

/-- The tensor of entry `i`. -/
def readTensor (buf : List UInt8) (tableOff i : Nat) : Except EtqError Tensor :=
  if buf.length < tableOff + 64 * i + 64 then .error .struct
  else
    let e := TqTensorEntry.decode buf (tableOff + 64 * i)
    Tensor.new (cstr e.name) e.dtype
      ([e.shape0, e.shape1, e.shape2, e.shape3, e.offset, e.nbytes].take e.ndim)
      (slice buf e.offset e.nbytes)

/-- `Reader(buf)`. -/
def read {R : Type} (float : UInt32 → R) (buf : List UInt8) : Except EtqError (Reader R) :=
  if buf.length < 96 then .error .struct
  else
    let f := TqHeader.decode buf
    if f.magic ≠ tqMagic then .error .notEtq
    else if f.version ≠ tqVersion then .error (.version f.version)
    else do
      let tensors ← (List.range f.tensorCount).mapM (readTensor buf f.tensorTableOffset)
      .ok { arch := f.arch
            tensorCount := f.tensorCount
            tableOff := f.tensorTableOffset
            dataOff := f.dataOffset
            flags := f.flags
            fileBytes := f.fileBytes
            cfg := { dim := f.dim
                     hiddenDim := f.hiddenDim
                     nLayers := f.nLayers
                     nHeads := f.nHeads
                     nKvHeads := f.nKvHeads
                     vocabSize := f.vocabSize
                     seqLen := f.seqLen
                     qtype := f.qtype
                     sharedClassifier := f.sharedClassifier
                     ropeTheta := float (UInt32.ofNat f.ropeTheta)
                     normEps := float (UInt32.ofNat f.normEps)
                     bosToken := f.bosToken
                     eosToken := f.eosToken }
            groupSize := f.groupSize
            tensors := tensors }

/-- A configuration as it is read back. -/
def Config.read {R : Type} (f32 : R → UInt32) (float : UInt32 → R) (c : Config R) :
    ReadConfig R where
  dim := c.dim
  hiddenDim := c.hiddenDim
  nLayers := c.nLayers
  nHeads := c.nHeads
  nKvHeads := c.nKvHeads
  vocabSize := c.vocabSize
  seqLen := c.seqLen
  qtype := c.qtype
  sharedClassifier := c.sharedClassifier
  ropeTheta := float (f32 c.ropeTheta)
  normEps := float (f32 c.normEps)
  bosToken := c.bosToken
  eosToken := c.eosToken

/-! ## What is read back -/

theorem mapM_eq_ok {ε α β : Type} {f : α → Except ε β} : ∀ {as : List α} {bs : List β},
    List.Forall₂ (fun a b => f a = .ok b) as bs → as.mapM f = .ok bs
  | [], _, h => by
      cases h
      rfl
  | a :: as, _, h => by
      cases h with
      | cons hab hrest =>
          rw [List.mapM_cons]
          refine bind_eq_ok.mpr ⟨_, hab, bind_eq_ok.mpr ⟨_, mapM_eq_ok hrest, rfl⟩⟩

theorem shape_read {t : Tensor} (h : t.shape.length ≤ 4) (off : Nat) :
    [t.shape.getD 0 0, t.shape.getD 1 0, t.shape.getD 2 0, t.shape.getD 3 0, off,
      t.payload.length].take t.shape.length = t.shape := by
  revert h
  generalize t.shape = shape
  intro h
  match shape, h with
  | [], _ => rfl
  | [_], _ => rfl
  | [_, _], _ => rfl
  | [_, _, _], _ => rfl
  | [_, _, _, _], _ => rfl

/-- **Writing and reading.** -/
theorem read_write {R : Type} {f32 : R → UInt32} (float : UInt32 → R) {c : Config R}
    {ts : List Tensor} {file : List UInt8} (hvalid : ∀ t ∈ ts, t.Valid)
    (hnames : ∀ t ∈ ts, cstr (packName t.name) = t.name) (h : write f32 c ts = .ok file) :
    ∃ r, read float file = .ok r ∧ r.cfg = c.read f32 float ∧ r.tensors = ts := by
  obtain ⟨data, hfile, hdesc, -, hlies⟩ := write_image h
  have hhdr : TqHeader.decode file = c.header f32 ts := by rw [hfile, decode_image hdesc]
  have hdir : directory file = entries ts := by rw [hfile, directory_image hdesc]
  have hlen : file.length = tqHeaderBytes + (entries ts).length * tqEntryBytes + data.length := by
    rw [hfile, length_image hdesc]
  have hcount : (entries ts).length = ts.length := hdesc.count.symm
  have hplaces : (regions ts).length = ts.length := by rw [regions, length_place, List.length_map]
  have hone : ∀ i (hi : i < ts.length), readTensor file tqHeaderBytes i = .ok ts[i] := by
    intro i hi
    have hentry : TqTensorEntry.decode file (tqHeaderBytes + 64 * i) =
        ts[i].entry (regions ts)[i].start := by
      have hleft : (directory file)[i]? =
          some (TqTensorEntry.decode file (tqHeaderBytes + 64 * i)) := by
        unfold directory directoryFrom
        rw [hhdr, List.getElem?_map]
        show ((List.range ts.length)[i]?).map _ = _
        rw [List.getElem?_range hi, Nat.zero_mul, Nat.add_zero, Nat.mul_comm 64 i]
        rfl
      have hright : (entries ts)[i]? = some (ts[i].entry (regions ts)[i].start) := by
        rw [List.getElem?_eq_getElem (by omega)]
        exact congrArg some List.getElem_zipWith
      rw [hdir, hright] at hleft
      exact (Option.some.inj hleft).symm
    have hpair : (ts[i], (regions ts)[i]) ∈ ts.zip (regions ts) := by
      rw [← List.getElem_zip (h := by rw [List.length_zip, hplaces, Nat.min_self]; exact hi)]
      exact List.getElem_mem _
    have ht : ts[i] ∈ ts := List.getElem_mem hi
    have hv := hvalid _ ht
    unfold readTensor
    rw [if_neg, hentry]
    · unfold Tensor.new Tensor.entry
      dsimp only
      rw [hnames _ ht, if_neg (Nat.not_le.mpr hv.name), shape_read hv.rank,
        if_neg (Nat.not_lt.mpr hv.rank), (hlies _ hpair).slice]
    · rw [hlen, hcount]
      unfold tqHeaderBytes tqEntryBytes
      omega
  have hall : (List.range ts.length).mapM (readTensor file tqHeaderBytes) = .ok ts := by
    refine mapM_eq_ok (List.forall₂_iff_get.mpr ⟨List.length_range, fun i h₁ h₂ => ?_⟩)
    rw [List.get_eq_getElem, List.get_eq_getElem, List.getElem_range]
    exact hone i h₂
  have hlong : ¬ file.length < 96 := by
    rw [hlen]
    unfold tqHeaderBytes
    omega
  unfold Etq.read
  rw [if_neg hlong, hhdr]
  dsimp only
  rw [if_neg (fun h => h rfl), if_neg (fun h => h rfl)]
  refine ⟨_, bind_eq_ok.mpr ⟨ts, hall, rfl⟩, ?_, rfl⟩
  unfold Config.read Config.header
  dsimp only
  rw [UInt32.ofNat_toNat, UInt32.ofNat_toNat]

end TinyLlm.Etq
