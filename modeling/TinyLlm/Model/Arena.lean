/-
# `TinyLlm.Model.Arena` — carving

`tq_carve` is a bump allocator over the addresses of the arena, as long as no
sum of `size_t` wraps: then it hands out the regions that `Bump.place` places
from the address of the arena on, and fails when the last of them ends outside
(`tqCarve_eq`).
-/
import Mathlib.Data.Nat.ModEq
import TinyLlm.Lib.Bump
import TinyLlm.Model.Open

namespace TinyLlm

open Bump

/-- The offset of a carve, if it is below the limit. -/
theorem tqCarve_offset {arena : TqArena} (hmod : 16 ∣ arena.sizeMod) {used : Nat}
    (hfit : roundUp 16 (arena.addr + used) < arena.addr + arena.sizeMod) :
    (tqAlignUp arena.sizeMod ((used + arena.addr % 16) % arena.sizeMod) 16 + arena.sizeMod -
      arena.addr % 16) % arena.sizeMod = roundUp 16 (arena.addr + used) - arena.addr := by
  obtain ⟨q, hq⟩ := hmod
  have hlow := le_roundUp 16 (arena.addr + used)
  have hhigh := @roundUp_lt 16 (by decide) (arena.addr + used)
  have hmult := @roundUp_mod 16 (by decide) (arena.addr + used)
  revert hfit hlow hhigh hmult
  generalize roundUp 16 (arena.addr + used) = top
  intro hfit hlow hhigh hmult
  unfold tqAlignUp
  dsimp only
  rw [show (used + arena.addr % 16) % arena.sizeMod + 16 - 1 =
    (used + arena.addr % 16) % arena.sizeMod + 15 from rfl, Nat.mod_add_mod]
  rcases Nat.lt_or_ge (used + arena.addr % 16 + 15) arena.sizeMod with hlt | hge
  · rw [Nat.mod_eq_of_lt hlt]
    have htop : used + arena.addr % 16 + 15 - (used + arena.addr % 16 + 15) % 16 + arena.sizeMod -
        arena.addr % 16 = top - arena.addr + arena.sizeMod := by omega
    rw [htop, Nat.add_mod_right, Nat.mod_eq_of_lt (by omega)]
  · -- the last multiple of 16 below the limit was passed: `top` is where the sizes wrap
    have hx : (used + arena.addr % 16 + 15) % arena.sizeMod =
        used + arena.addr % 16 + 15 - arena.sizeMod := by
      rw [Nat.mod_eq_sub_mod hge, Nat.mod_eq_of_lt (by omega)]
    rw [hx]
    have htop : used + arena.addr % 16 + 15 - arena.sizeMod -
        (used + arena.addr % 16 + 15 - arena.sizeMod) % 16 + arena.sizeMod - arena.addr % 16 =
          top - arena.addr := by omega
    rw [htop, Nat.mod_eq_of_lt (by omega)]

/-- **One carve** without wrapping. -/
theorem tqCarve_eq {arena : TqArena} (hmod : 16 ∣ arena.sizeMod) {used bytes : Nat}
    (hfit : roundUp 16 (arena.addr + used) + bytes < arena.addr + arena.sizeMod) :
    tqCarve arena used bytes =
      if roundUp 16 (arena.addr + used) + bytes > arena.addr + arena.cap then none
      else some (roundUp 16 (arena.addr + used) - arena.addr,
        roundUp 16 (arena.addr + used) + bytes - arena.addr) := by
  have hlow := le_roundUp 16 (arena.addr + used)
  unfold tqCarve
  dsimp only
  rw [tqCarve_offset hmod (by omega), Nat.mod_eq_of_lt (by omega)]
  by_cases hcap : roundUp 16 (arena.addr + used) + bytes > arena.addr + arena.cap
  · rw [if_pos hcap, if_pos (by omega)]
  · rw [if_neg hcap, if_neg (by omega)]
    congr 2
    omega

/-- The offset of a carve that succeeded, even if the end wrapped. -/
theorem tqCarve_some {arena : TqArena} (hmod : 16 ∣ arena.sizeMod) {used bytes off used' : Nat}
    (hfit : roundUp 16 (arena.addr + used) < arena.addr + arena.sizeMod)
    (h : tqCarve arena used bytes = some (off, used')) :
    off = roundUp 16 (arena.addr + used) - arena.addr := by
  unfold tqCarve at h
  dsimp only at h
  rw [tqCarve_offset hmod hfit] at h
  split at h
  · cases h
  · cases h
    rfl

/-- An arena in the memory of a board with a 32-bit `size_t`. -/
structure TqArena.OnBoard (arena : TqArena) : Prop where
  sizeMod : arena.sizeMod = 2 ^ 32
  addr_pos : 0 < arena.addr
  addr_cap : arena.addr + arena.cap ≤ 2 ^ 32

/-- Next to used memory there is no room to wrap before the carve. -/
theorem TqArena.OnBoard.start_lt {arena : TqArena} (h : arena.OnBoard) {used : Nat}
    (hused : used ≤ arena.cap) :
    roundUp 16 (arena.addr + used) < arena.addr + 2 ^ 32 := by
  have hpos := h.addr_pos
  have hcap := h.addr_cap
  have hlow := le_roundUp 16 (arena.addr + used)
  have hhigh := @roundUp_lt 16 (by decide) (arena.addr + used)
  have hmult := @roundUp_mod 16 (by decide) (arena.addr + used)
  omega

/-! ## The layer table -/

/-- A layer number is the decimal value of three bytes, modulo 2^32. -/
theorem tqLayerNumber_eq (name : List UInt8) : tqLayerNumber name =
    ((name.getD 1 0).toNat * 100 + (name.getD 2 0).toNat * 10 + (name.getD 3 0).toNat +
      (2 ^ 32 - 5328)) %
      2 ^ 32 := by
  have hsum : ∀ a b c k n : Nat, ((a + k) % n * 100 + (b + k) % n * 10 + (c + k) % n) % n =
      ((a + k) * 100 + (b + k) * 10 + (c + k)) % n := fun a b c k n =>
    (((Nat.mod_modEq _ n).mul_right 100).add ((Nat.mod_modEq _ n).mul_right 10)).add
      (Nat.mod_modEq _ n)
  unfold tqLayerNumber
  dsimp only
  rw [hsum]
  omega

/-- The digits are bytes, so a number that is not negative is small. -/
theorem tqLayerNumber_le {name : List UInt8} (h : tqLayerNumber name < 2 ^ 31) :
    tqLayerNumber name ≤ 22977 := by
  have h₁ := (name.getD 1 0).toNat_lt
  have h₂ := (name.getD 2 0).toNat_lt
  have h₃ := (name.getD 3 0).toNat_lt
  rw [tqLayerNumber_eq] at h ⊢
  revert h
  generalize hsum : (name.getD 1 0).toNat * 100 + (name.getD 2 0).toNat * 10 +
    (name.getD 3 0).toNat = sum
  intro h
  rcases Nat.lt_or_ge sum 5328 with hneg | hpos
  · rw [Nat.mod_eq_of_lt (by omega)] at h
    omega
  · rw [Nat.mod_eq_sub_mod (by omega), Nat.mod_eq_of_lt (by omega)]
    omega

end TinyLlm
