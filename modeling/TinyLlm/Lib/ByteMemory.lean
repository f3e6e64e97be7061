/-
# `TinyLlm.Lib.ByteMemory` — values at addresses

A memory of bytes in which values of several kinds are kept.  A `Codec` says
how many bytes a value of a kind takes, which ones, and what is read from bytes
that hold anything else; the one thing asked of it is that a value is read as
it was written.

A read behind a write gives the value at the same place (`read_write`), and
what was there before where the two have no byte in common
(`read_write_apart`).  Between the two lie the reads of half a value, about
which nothing is said.
-/
import Mathlib.Order.Interval.Set.Disjoint
import Mathlib.Order.CompletePartialOrder

namespace ByteMemory

/-- Values of kind `k` in `width k` bytes. -/
structure Codec {κ : Type} (V : κ → Type) (width : κ → Nat) where
  Byte : Type
  bytes : ∀ k, V k → Nat → Byte
  value : ∀ k, (Nat → Byte) → V k
  value_congr : ∀ k f g, (∀ i < width k, f i = g i) → value k f = value k g
  value_bytes : ∀ k v, value k (bytes k v) = v

variable {κ : Type} {V : κ → Type} {width : κ → Nat}

/-- Bytes that know the value they are part of. -/
def Codec.tags [DecidableEq κ] (hwidth : ∀ k, 0 < width k) (other : ∀ k, V k) : Codec V width where
  Byte := Σ k, V k
  bytes k v _ := ⟨k, v⟩
  value k f := if h : (f 0).1 = k then h ▸ (f 0).2 else other k
  value_congr k f g h := by rw [h 0 (hwidth k)]
  value_bytes k v := dif_pos rfl

variable (c : Codec V width)

/-- The value of kind `k` at address `a`. -/
def Codec.read (mem : Nat → c.Byte) (k : κ) (a : Nat) : V k := c.value k fun i => mem (a + i)

def Codec.write (mem : Nat → c.Byte) (k : κ) (a : Nat) (v : V k) : Nat → c.Byte := fun b =>
  if a ≤ b ∧ b < a + width k then c.bytes k v (b - a) else mem b

variable {c} {mem : Nat → c.Byte} {k k' : κ} {a a' : Nat} {v : V k}

/-- A byte that a write does not reach. -/
theorem write_outside {b : Nat} (h : b ∉ Set.Ico a (a + width k)) :
    c.write mem k a v b = mem b := if_neg h

/-- A read looks at its own bytes only. -/
theorem read_congr {mem' : Nat → c.Byte} (h : ∀ b ∈ Set.Ico a (a + width k), mem b = mem' b) :
    c.read mem k a = c.read mem' k a :=
  c.value_congr k _ _ fun _ hi => h _ ⟨Nat.le_add_right _ _, Nat.add_lt_add_left hi _⟩

/-- **What was written is read.** -/
theorem read_write : c.read (c.write mem k a v) k a = v := by
  refine (c.value_congr k _ (c.bytes k v) fun i hi => ?_).trans (c.value_bytes k v)
  have hin : a ≤ a + i ∧ a + i < a + width k := ⟨Nat.le_add_right _ _, Nat.add_lt_add_left hi _⟩
  show (if _ then _ else _) = _
  rw [if_pos hin, Nat.add_sub_cancel_left]

/-- **A write elsewhere** changes nothing. -/
theorem read_write_apart (h : Disjoint (Set.Ico a' (a' + width k')) (Set.Ico a (a + width k))) :
    c.read (c.write mem k a v) k' a' = c.read mem k' a' :=
  read_congr fun _ hb => write_outside (Set.disjoint_left.mp h hb)

end ByteMemory
