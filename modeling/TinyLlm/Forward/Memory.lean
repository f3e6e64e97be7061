/-
# `TinyLlm.Forward.Memory` — the buffers of a runtime

`tq_runtime_init` carves the activation buffers and the KV cache out of two
arenas.  A location is an element of one of them; the cache is read either as
floats or as signed bytes, by the cache type of the runtime, and has one set of
locations for each.  A memory gives every location a value, whatever was there
before.
-/
import TinyLlm.Model.Open

namespace TinyLlm

open Relational

/-! ## Runtimes -/

/-- `TQ_KV_F32` and `TQ_KV_Q8`. -/
inductive TqKv where
  | f32
  | q8
deriving DecidableEq, Repr

/-- What `tq_runtime_init` sets up; the offsets are those of the buffers in
their arenas, in the order in which they are carved. -/
structure TqRuntime where
  maxSeq : Nat
  kvDtype : TqKv
  fast : List Nat
  cache : List Nat

/-- `sizeof(TqBlockQ80)`. -/
def tqBlockQ80Bytes : Nat := 34

/-- The sizes carved out of the fast arena: x, xb, xb2, q, hb, hb3, att,
logits, xq, hq, kb, vb, rope_cos, rope_sin. -/
def tqFastSizes (m : TqModel) (maxSeq : Nat) : List Nat :=
  [m.dim * 4, m.dim * 4, m.dim * 4, m.dim * 4, m.hiddenDim * 4, m.hiddenDim * 4,
   m.nHeads * maxSeq * 4, m.vocabSize * 4, m.dim / tqGroupSize * tqBlockQ80Bytes,
   m.hiddenDim / tqGroupSize * tqBlockQ80Bytes, m.kvDim * 4, m.kvDim * 4,
   m.headSize / 2 * 4, m.headSize / 2 * 4]

/-- The sizes carved out of the cache arena: k_cache, v_cache and, for bytes,
k_scale, v_scale. -/
def tqCacheSizes (m : TqModel) (maxSeq : Nat) : TqKv → List Nat
  | .f32 => [m.nLayers * maxSeq * m.kvDim * 4, m.nLayers * maxSeq * m.kvDim * 4]
  | .q8 => [m.nLayers * maxSeq * m.kvDim, m.nLayers * maxSeq * m.kvDim,
      m.nLayers * maxSeq * m.nKvHeads * 4, m.nLayers * maxSeq * m.nKvHeads * 4]

/-- `tq_kv_bytes`: what a caller sets aside for the cache. -/
def tqKvBytes (sizeMod : Nat) (m : TqModel) (maxSeq : Nat) (kvDtype : TqKv) : Nat :=
  let n := m.nLayers * maxSeq * m.kvDim
  match kvDtype with
  | .q8 =>
      let scales := m.nLayers * maxSeq * m.nKvHeads
      2 * (n + tqAlignUp sizeMod (scales * 4) 16 + 16) % sizeMod
  | .f32 => (2 * n * 4 + 32) % sizeMod

/-- `tq_runtime_bytes`: the same for the activations. -/
def tqRuntimeBytes (sizeMod : Nat) (m : TqModel) (maxSeq : Nat) : Nat :=
  (4 * m.dim * 4 + 2 * m.hiddenDim * 4 + 2 * m.kvDim * 4 + m.headSize * 4 +
    m.nHeads * maxSeq * 4 + m.vocabSize * 4 + m.dim / tqGroupSize * tqBlockQ80Bytes +
    m.hiddenDim / tqGroupSize * tqBlockQ80Bytes + 16 * 14) % sizeMod

/-- Carve one buffer after the other; every one has to fit. -/
def tqCarveAll (arena : TqArena) : Nat → List Nat → Option (List Nat)
  | _, [] => some []
  | used, bytes :: sizes => do
      let (off, used) ← tqCarve arena used (bytes % arena.sizeMod)
      let offs ← tqCarveAll arena used sizes
      some (off :: offs)

def tqRuntimeInit (m : TqModel) (maxSeq kvDtype : Int) (fast cache : TqArena) :
    Except TqStatus TqRuntime :=
  if maxSeq ≤ 0 ∨ maxSeq > m.seqLen then .error .errRange
  else if kvDtype ≠ 0 ∧ kvDtype ≠ 1 then .error .errRange
  else
    let kv : TqKv := if kvDtype = 0 then .f32 else .q8
    match tqCarveAll fast 0 (tqFastSizes m maxSeq.toNat),
      tqCarveAll cache 0 (tqCacheSizes m maxSeq.toNat kv) with
    | some f, some c => .ok { maxSeq := maxSeq.toNat, kvDtype := kv, fast := f, cache := c }
    | _, _ => .error .errNomem

/-! ## Memory -/

/-- The float buffers, the cache as floats among them. -/
inductive TqBuf where
  | x
  | xb
  | xb2
  | q
  | hb
  | hb3
  | att
  | logits
  | kb
  | vb
  | ropeCos
  | ropeSin
  | kCache
  | vCache
  | kScale
  | vScale
deriving DecidableEq

/-- The cache as bytes. -/
inductive TqBytes where
  | kCache
  | vCache
deriving DecidableEq

/-- The buffers of quantized activations. -/
inductive TqQuant where
  | xq
  | hq
deriving DecidableEq

inductive TqLoc where
  | f (b : TqBuf) (i : Nat)
  | i8 (b : TqBytes) (i : Nat)
  | blk (b : TqQuant) (i : Nat)
deriving DecidableEq

/-- What a location holds. -/
def TqVal (F : Type) : TqLoc → Type
  | .f _ _ => F
  | .i8 _ _ => Int8
  | .blk _ _ => TqBlockQ80

abbrev TqMem (F : Type) := ∀ l, TqVal F l

section Mem
variable {F : Type}

def TqMem.f (mem : TqMem F) (b : TqBuf) (i : Nat) : F := mem (.f b i)

def TqMem.i8 (mem : TqMem F) (b : TqBytes) (i : Nat) : Int8 := mem (.i8 b i)

def TqMem.blk (mem : TqMem F) (b : TqQuant) (i : Nat) : TqBlockQ80 := mem (.blk b i)

/-- One write. -/
def TqMem.put (mem : TqMem F) (l : TqLoc) (v : TqVal F l) : TqMem F := Function.update mem l v

/-- Replace the contents of a float buffer. -/
def TqMem.setBuf (mem : TqMem F) (b : TqBuf) (a : Nat → F) : TqMem F
  | .f b' i => if b' = b then a i else mem (.f b' i)
  | .i8 b' i => mem (.i8 b' i)
  | .blk b' i => mem (.blk b' i)

end Mem

/-- What a step does with memory: it reads and writes elements of buffers. -/
class TqMemory (F : outParam Type) (M : Type) where
  f : M → TqBuf → Nat → F
  i8 : M → TqBytes → Nat → Int8
  blk : M → TqQuant → Nat → TqBlockQ80
  put : M → (l : TqLoc) → TqVal F l → M

/-- Buffers that have nothing in common. -/
@[default_instance]
instance TqMem.memory {F : Type} : TqMemory F (TqMem F) where
  f := TqMem.f
  i8 := TqMem.i8
  blk := TqMem.blk
  put := TqMem.put

section Mem
variable {F : Type} (mem : TqMem F)

@[simp] theorem memory_f (b : TqBuf) (i : Nat) : TqMemory.f mem b i = mem.f b i := rfl

@[simp] theorem memory_i8 (b : TqBytes) (i : Nat) : TqMemory.i8 mem b i = mem.i8 b i := rfl

@[simp] theorem memory_blk (b : TqQuant) (i : Nat) : TqMemory.blk mem b i = mem.blk b i := rfl

@[simp] theorem memory_put : TqMemory.put mem = mem.put := rfl

end Mem

/-- A runtime at work: its memory, its bandwidth counter and the tile of the
store it reads from. -/
structure TqMachine (M : Type) where
  mem : M
  bytesRead : Nat
  tile : TqTile

section Machine
variable {M α : Type}

/-- An operation on memory. -/
def onMem (op : M → M) : Tq (TqMachine M) Unit :=
  modify fun s => { s with mem := op s.mem }

/-- An operation on the store. -/
def onTile (p : Tq TqTile α) : Tq (TqMachine M) α :=
  fun s => ((p.exec s.tile).1, { s with tile := (p.exec s.tile).2 })

theorem onTile_exec (p : Tq TqTile α) (s : TqMachine M) :
    (onTile p : Tq (TqMachine M) α).exec s =
      ((p.exec s.tile).1, { s with tile := (p.exec s.tile).2 }) := rfl

end Machine

end TinyLlm
