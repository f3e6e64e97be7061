/-
# `TinyLlm.Lib.Bytes` — byte strings with numbers in them

A slice of a byte string, and little-endian numbers of a fixed width: `toLE w`
writes the `w` low bytes of a number, `ofLE` reads them back.  A reader that
takes `leAt bs off w` sees what a writer put there as soon as the string
splits at `off` (`leAt_append_right`, `leAt_toLE`).  A record is packed from
the widths and values of its fields (`leAt_pack`).
-/
import Mathlib.Data.Nat.Bitwise
import Mathlib.Data.UInt
import Mathlib.Tactic.Ring

namespace Bytes

/-! ## Slices -/

/-- The `n` bytes from `off` on, fewer where the string ends. -/
def slice (bs : List UInt8) (off n : Nat) : List UInt8 := (bs.drop off).take n

variable {bs cs : List UInt8} {off n : Nat}

theorem length_slice (h : off + n ≤ bs.length) : (slice bs off n).length = n := by
  rw [slice, List.length_take, List.length_drop]
  omega

/-- A slice of a slice. -/
theorem slice_slice {a k : Nat} (h : off + n ≤ k) :
    slice (slice bs a k) off n = slice bs (a + off) n := by
  rw [slice, slice, slice, List.drop_take, List.drop_drop, List.take_take,
    Nat.min_eq_left (by omega)]

theorem slice_append_left (h : off + n ≤ bs.length) : slice (bs ++ cs) off n = slice bs off n := by
  rw [slice, slice, List.drop_append_of_le_length (by omega),
    List.take_append_of_le_length (by rw [List.length_drop]; omega)]

theorem slice_append_right (h : bs.length ≤ off) :
    slice (bs ++ cs) off n = slice cs (off - bs.length) n := by
  rw [slice, slice, List.drop_append, List.drop_of_length_le h, List.nil_append]

theorem slice_zero (h : bs.length = n) : slice bs 0 n = bs := by
  rw [slice, List.drop_zero, List.take_of_length_le h.le]

theorem getD_slice {i : Nat} (h : i < n) : (slice bs off n).getD i 0 = bs.getD (off + i) 0 := by
  rw [slice, List.getD_eq_getElem?_getD, List.getD_eq_getElem?_getD, List.getElem?_take,
    if_pos h, List.getElem?_drop]

/-! ## Little-endian numbers -/

def toLE : Nat → Nat → List UInt8
  | 0, _ => []
  | w + 1, v => UInt8.ofNat v :: toLE w (v / 256)

def ofLE : List UInt8 → Nat
  | [] => 0
  | b :: bs => b.toNat + 256 * ofLE bs

@[simp] theorem length_toLE : ∀ w v, (toLE w v).length = w
  | 0, _ => rfl
  | w + 1, v => by rw [toLE, List.length_cons, length_toLE w]

theorem ofLE_toLE : ∀ w v, ofLE (toLE w v) = v % 256 ^ w
  | 0, v => by rw [pow_zero, Nat.mod_one]; rfl
  | w + 1, v => by
      rw [toLE, ofLE, ofLE_toLE w, pow_succ', Nat.mod_mul]
      rfl

theorem ofLE_toLE_of_lt {w v : Nat} (h : v < 256 ^ w) : ofLE (toLE w v) = v := by
  rw [ofLE_toLE, Nat.mod_eq_of_lt h]

theorem ofLE_lt : ∀ bs : List UInt8, ofLE bs < 256 ^ bs.length
  | [] => Nat.one_pos
  | b :: bs => by
      have ih := ofLE_lt bs
      have hb := b.toNat_lt
      rw [ofLE, List.length_cons, pow_succ]
      omega

/-- The number of `w` bytes at `off`. -/
def leAt (bs : List UInt8) (off w : Nat) : Nat := ofLE (slice bs off w)

theorem leAt_lt (bs : List UInt8) (off w : Nat) : leAt bs off w < 256 ^ w := by
  refine Nat.lt_of_lt_of_le (ofLE_lt _) (Nat.pow_le_pow_right (by decide) ?_)
  rw [slice]
  exact List.length_take_le w _

theorem leAt_slice {a k w : Nat} (h : off + w ≤ k) :
    leAt (slice bs a k) off w = leAt bs (a + off) w := by
  rw [leAt, slice_slice h, leAt]

theorem leAt_append_right {w : Nat} (h : bs.length ≤ off) :
    leAt (bs ++ cs) off w = leAt cs (off - bs.length) w := by
  rw [leAt, slice_append_right h, leAt]

/-- What was written is read back. -/
theorem leAt_toLE {w v : Nat} (h : v < 256 ^ w) : leAt (toLE w v ++ cs) 0 w = v := by
  rw [leAt, slice_append_left (by rw [length_toLE]; omega), slice_zero (length_toLE w v),
    ofLE_toLE_of_lt h]

/-! ## Packed records -/

/-- A record of little-endian fields, each a width and a value. -/
def pack (fields : List (Nat × Nat)) : List UInt8 := fields.flatMap fun f => toLE f.1 f.2

/-- How long a packed record is. -/
def packSize (fields : List (Nat × Nat)) : Nat := (fields.map Prod.fst).sum

theorem length_pack : ∀ fields, (pack fields).length = packSize fields
  | [] => rfl
  | f :: fields => by
      have ih := length_pack fields
      unfold pack packSize at ih ⊢
      rw [List.flatMap_cons, List.length_append, length_toLE, ih, List.map_cons, List.sum_cons]

/-- **A field of a packed record** is where the fields before it end. -/
theorem leAt_pack : ∀ {fields : List (Nat × Nat)} {i w v : Nat}, fields[i]? = some (w, v) →
    v < 256 ^ w → leAt (pack fields ++ cs) (packSize (fields.take i)) w = v
  | f :: fields, 0, w, v, h, hv => by
      cases h
      rw [pack, List.flatMap_cons, List.append_assoc]
      exact leAt_toLE hv
  | f :: fields, i + 1, w, v, h, hv => by
      have hsize : packSize ((f :: fields).take (i + 1)) =
          (toLE f.1 f.2).length + packSize (fields.take i) := by
        rw [List.take_succ_cons, packSize, List.map_cons, List.sum_cons, length_toLE]
        rfl
      rw [hsize, pack, List.flatMap_cons, List.append_assoc,
        leAt_append_right (Nat.le_add_right _ _), Nat.add_sub_cancel_left]
      exact leAt_pack h hv

/-- A word of an array of words. -/
theorem leAt_words {w : Nat} {vs : List Nat} {i v : Nat} (h : vs[i]? = some v) (hv : v < 256 ^ w) :
    leAt (vs.flatMap (toLE w)) (w * i) w = v := by
  have hpack : ∀ vs : List Nat, pack (vs.map fun v => (w, v)) = vs.flatMap (toLE w) := by
    intro vs
    rw [pack, List.flatMap_map]
  have hsize : packSize ((vs.map fun v => (w, v)).take i) = w * i := by
    obtain ⟨hi, -⟩ := List.getElem?_eq_some_iff.mp h
    have hconst : ((vs.map fun v => (w, v)).take i).map Prod.fst = List.replicate i w := by
      rw [← List.map_take, List.map_map]
      have hlen : (vs.take i).length = i := List.length_take_of_le hi.le
      conv => rhs; rw [← hlen]
      exact List.map_const'
    rw [packSize, hconst, List.sum_replicate_nat, Nat.mul_comm]
  have hfield : (vs.map fun v => (w, v))[i]? = some (w, v) := by
    rw [List.getElem?_map, h]
    rfl
  have hat := @leAt_pack [] _ i w v hfield hv
  rw [hpack, List.append_nil, hsize] at hat
  exact hat

/-! ## Bits -/

/-- The top bit of a number is its own field. -/
theorem and_top {n k : Nat} (h : n < 2 ^ (k + 1)) : n &&& 2 ^ k = n / 2 ^ k * 2 ^ k := by
  have : n / 2 ^ k < 2 := by
    rw [Nat.div_lt_iff_lt_mul (Nat.two_pow_pos k), ← Nat.pow_succ']
    exact h
  rw [Nat.and_two_pow, Nat.testBit_eq_decide_div_mod_eq]
  generalize n / 2 ^ k = b at this
  rcases (by omega : b = 0 ∨ b = 1) with rfl | rfl <;> rfl

end Bytes
