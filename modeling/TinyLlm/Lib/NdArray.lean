/-
# `TinyLlm.Lib.NdArray` — arrays with a shape, in row-major order

An array is its elements in one row and the lengths of its axes.  `reshape`
keeps the row and `transpose` writes a new one, so what either does to an
element is arithmetic on the place that an index has in the row (`ravel`).
For indices within the shape `unravel` is the inverse of that
(`unravel_ravel`), which gives an element after a transposition
(`get_transpose`).
-/
import Mathlib.Algebra.BigOperators.Group.List.Basic
import Mathlib.Data.List.GetD

/-- `data` has `shape.prod` elements, the last axis running fastest. -/
structure NdArray (α : Type*) where
  shape : List Nat
  data : Nat → α

namespace NdArray

variable {α : Type*}

/-- The place of an index. -/
def ravel : List Nat → List Nat → Nat
  | _ :: ns, i :: is => i * ns.prod + ravel ns is
  | _, _ => 0

/-- The index of a place. -/
def unravel : List Nat → Nat → List Nat
  | [], _ => []
  | _ :: ns, k => k / ns.prod :: unravel ns (k % ns.prod)

def get (a : NdArray α) (idx : List Nat) : α := a.data (ravel a.shape idx)

/-- `a.reshape(shape)`, which needs as many elements as there are. -/
def reshape (a : NdArray α) (shape : List Nat) : Option (NdArray α) :=
  if shape.prod = a.shape.prod then some ⟨shape, a.data⟩ else none

/-- The index into the array that was transposed. -/
def untranspose (axes idx : List Nat) : List Nat :=
  (List.range axes.length).map fun p => idx.getD (axes.idxOf p) 0

/-- `a.transpose(axes)`. -/
def transpose (a : NdArray α) (axes : List Nat) : NdArray α where
  shape := axes.map fun p => a.shape.getD p 0
  data k := a.get (untranspose axes (unravel (axes.map fun p => a.shape.getD p 0) k))

/-- Each index is below the length of its axis. -/
def Within (shape idx : List Nat) : Prop := List.Forall₂ (· < ·) idx shape

theorem ravel_lt : ∀ {shape idx : List Nat}, Within shape idx → ravel shape idx < shape.prod
  | [], [], _ => Nat.one_pos
  | n :: ns, i :: is, .cons hi his => by
      have ih := ravel_lt his
      rw [ravel, List.prod_cons]
      calc i * ns.prod + ravel ns is < i * ns.prod + ns.prod := Nat.add_lt_add_left ih _
        _ = (i + 1) * ns.prod := (Nat.succ_mul i ns.prod).symm
        _ ≤ n * ns.prod := Nat.mul_le_mul_right _ hi

/-- **Places and indices** are the same within the shape. -/
theorem unravel_ravel : ∀ {shape idx : List Nat}, Within shape idx →
    unravel shape (ravel shape idx) = idx
  | [], [], _ => rfl
  | n :: ns, i :: is, .cons hi his => by
      have hlt := ravel_lt his
      have hpos : 0 < ns.prod := Nat.lt_of_le_of_lt (Nat.zero_le _) hlt
      rw [unravel, ravel, Nat.mul_add_mod', Nat.mod_eq_of_lt hlt, unravel_ravel his,
        Nat.mul_comm, Nat.mul_add_div hpos, Nat.div_eq_of_lt hlt, Nat.add_zero]

theorem reshape_eq_some {a : NdArray α} {shape : List Nat} (h : shape.prod = a.shape.prod) :
    a.reshape shape = some ⟨shape, a.data⟩ :=
  if_pos h

/-- **An element after a transposition.** -/
theorem get_transpose (a : NdArray α) (axes : List Nat) {idx : List Nat}
    (h : Within (axes.map fun p => a.shape.getD p 0) idx) :
    (a.transpose axes).get idx = a.get (untranspose axes idx) := by
  unfold get transpose
  dsimp only
  rw [unravel_ravel h]
  rfl

end NdArray
