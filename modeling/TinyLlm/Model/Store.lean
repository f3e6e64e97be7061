/-
# `TinyLlm.Model.Store` — where the weights are

A store is a memory image, or a read callback with one bounce buffer, the
tile.  `tq_store_view` answers both with a pointer:

  mapped      into the image itself, for as long as the program runs
  streaming   into the tile, until the next view overwrites it

A view into the tile carries the number of the read that filled it.  Two uses
of a pointer are failures of their own, which no status of the C stands for:
reading through it after the next view (`Fault.stale`), and reading past the
image, or past the bytes that were fetched into the tile (`Fault.overrun`).
-/
import TinyLlm.Lib.Bytes
import TinyLlm.Lib.Relational
import TinyLlm.Status

namespace TinyLlm

open Bytes Relational

/-- A call returned a negative status, or a pointer was used that is not
valid, or not for that many bytes. -/
inductive Fault where
  | status (rc : TqStatus)
  | stale
  | overrun
deriving DecidableEq, Repr

/-- A piece of the engine that works on state `σ`. -/
abbrev Tq (σ α : Type) := Prog Fault σ α

/-- `return rc;` -/
def fail {σ α : Type} (rc : TqStatus) : Tq σ α := throw (.status rc)

/-! ## The store -/

/-- A mapped image, or a callback that yields `nbytes` bytes at an offset, or
`none` when it reports failure. -/
inductive TqBacking where
  | mapped (base : List UInt8)
  | stream (read : Nat → Nat → Option (List UInt8)) (tileBytes : UInt32)

structure TqStore where
  bytes : UInt64
  backing : TqBacking

/-- `tq_store_init_mapped`. -/
def tqStoreInitMapped (base : List UInt8) (bytes : UInt64) : TqStore := ⟨bytes, .mapped base⟩

/-- `tq_store_init_stream`. -/
def tqStoreInitStream (bytes : UInt64) (read : Nat → Nat → Option (List UInt8))
    (tileBytes : UInt32) : TqStore :=
  ⟨bytes, .stream read tileBytes⟩

/-- The tile: how many reads went into it, and what the last one left. -/
structure TqTile where
  reads : Nat
  bytes : List UInt8

/-- A pointer handed out by `tq_store_view`: what lies behind it in the image,
or the number of the read and how many bytes it fetched. -/
inductive TqView where
  | direct (bytes : List UInt8)
  | tile (read nbytes : Nat)

/-- `none` is `NULL`.  The range check is in 64-bit arithmetic. -/
def tqStoreView (st : TqStore) (off nbytes : Nat) : Tq TqTile (Option TqView) :=
  if (off + nbytes) % 2 ^ 64 > st.bytes.toNat then pure none
  else
    match st.backing with
    | .mapped base => pure (some (.direct (base.drop off)))
    | .stream read tileBytes =>
        if nbytes > tileBytes.toNat then pure none
        else do
          let t ← get
          set { reads := t.reads + 1, bytes := (read off nbytes).getD [] : TqTile }
          pure ((read off nbytes).map fun _ => .tile (t.reads + 1) nbytes)

/-- Read `n` bytes through a pointer. -/
def deref (v : TqView) (n : Nat) : Tq TqTile (List UInt8) :=
  match v with
  | .direct bytes => if n ≤ bytes.length then pure (bytes.take n) else throw .overrun
  | .tile read nbytes => do
      let t ← get
      if t.reads ≠ read then throw .stale
      if n ≤ nbytes then pure (t.bytes.take n) else throw .overrun

/-- A view that the caller needs, and the status it returns without it. -/
def viewOr (st : TqStore) (off nbytes : Nat) (rc : TqStatus) : Tq TqTile TqView := do
  match ← tqStoreView st off nbytes with
  | some v => pure v
  | none => fail rc

/-! ## What lies behind a pointer -/

/-- Behind `v` there are the `n` bytes `bs`, as long as no other view is taken. -/
def Behind (bs : List UInt8) (n : Nat) (v : TqView) (t : TqTile) : Prop :=
  ∀ k, (deref v k).exec t = (if k ≤ n then .ok (bs.take k) else .error .overrun, t)

/-- What the store has at an offset: the bytes that a view of it finds, and how
many of them may be read. -/
def TqStore.fetch (st : TqStore) (off nbytes : Nat) : Option (List UInt8 × Nat) :=
  if (off + nbytes) % 2 ^ 64 > st.bytes.toNat then none
  else
    match st.backing with
    | .mapped base => some (base.drop off, (base.drop off).length)
    | .stream read tileBytes =>
        if nbytes > tileBytes.toNat then none else (read off nbytes).map fun bs => (bs, nbytes)

theorem behind_direct (bs : List UInt8) (t : TqTile) : Behind bs bs.length (.direct bs) t := by
  intro k
  unfold deref
  dsimp only
  split
  · rfl
  · rfl

theorem behind_tile (t : TqTile) (n : Nat) : Behind t.bytes n (.tile t.reads n) t := by
  intro k
  unfold deref
  dsimp only
  rw [exec_bind_ok (exec_get t), if_neg fun h => h rfl]
  split
  · rfl
  · rfl

/-- **A view**: the status if the store has nothing there, or a pointer at what
it has. -/
theorem viewOr_exec (st : TqStore) (off nbytes : Nat) (rc : TqStatus) (t : TqTile) :
    match st.fetch off nbytes with
    | none => ∃ t', (viewOr st off nbytes rc).exec t = (.error (.status rc), t')
    | some (bs, n) => ∃ v t', (viewOr st off nbytes rc).exec t = (.ok v, t') ∧
      Behind bs n v t' := by
  unfold TqStore.fetch viewOr tqStoreView
  by_cases hin : (off + nbytes) % 2 ^ 64 > st.bytes.toNat
  · rw [if_pos hin, if_pos hin]
    exact ⟨t, rfl⟩
  · rw [if_neg hin, if_neg hin]
    cases st.backing with
    | mapped base => exact ⟨_, t, rfl, behind_direct _ t⟩
    | stream read tileBytes =>
        dsimp only
        by_cases hfit : nbytes > tileBytes.toNat
        · rw [if_pos hfit, if_pos hfit]
          exact ⟨t, rfl⟩
        · rw [if_neg hfit, if_neg hfit]
          cases hr : read off nbytes with
          | none => exact ⟨_, rfl⟩
          | some bs => exact ⟨_, _, rfl, behind_tile ⟨t.reads + 1, bs⟩ nbytes⟩

/-! ## Two stores of one image -/

/-- A callback that returns exactly the bytes of the image and fails outside it. -/
def ServesImage (image : List UInt8) (read : Nat → Nat → Option (List UInt8)) : Prop :=
  ∀ off nbytes bs, read off nbytes = some bs →
    off + nbytes ≤ image.length ∧ bs = slice image off nbytes

end TinyLlm
