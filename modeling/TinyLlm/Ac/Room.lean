/-
# `TinyLlm.Ac.Room` — how much a message can grow

A shift settles what is owed to the buffer and owes one byte more: with
`owed = len + pending + primed`, each `tq_ac_shift_low` raises `owed` by one
and nothing else raises it.  The overflow flag stays clear as long as `owed`
stays within `cap`, so a bound on the number of shifts is a bound on the
buffer a message needs.
-/
import TinyLlm.Ac.Encoder

namespace TinyLlm

open Loop

/-- Bytes written, and bytes that the next settling shift writes. -/
def TqAcEnc.owed (e : TqAcEnc) : Nat := e.buf.length + e.pending + e.primed.toNat

/-- `n` more shifts fit the buffer. -/
structure TqAcEnc.Room (e : TqAcEnc) (n : Nat) : Prop where
  clear : e.overflow = false
  fits : e.owed + n ≤ e.cap

theorem TqAcEnc.Room.mono {e : TqAcEnc} {m n : Nat} (h : e.Room n) (hm : m ≤ n) : e.Room m :=
  ⟨h.clear, Nat.le_trans (Nat.add_le_add_left hm _) h.fits⟩

theorem tqAcPut_fits {e : TqAcEnc} {byte : UInt8} (h : e.buf.length < e.cap) :
    tqAcPut e byte = { e with buf := e.buf ++ [byte] } := by
  rw [tqAcPut, if_pos h]

theorem tqAcDrain_fits {carry : UInt8} : ∀ {n : Nat} {e : TqAcEnc}, e.buf.length + n ≤ e.cap →
    tqAcDrain carry n e
      = { e with buf := e.buf ++ List.replicate n ((0xFF : UInt8) + carry), pending := 0 }
  | 0, e, _ => by simp [tqAcDrain]
  | n + 1, e, h => by
      rw [tqAcDrain, tqAcPut_fits (by omega), tqAcDrain_fits (by simp; omega)]
      simp [List.replicate_succ]

theorem tqAcSettle_fits {e : TqAcEnc} (h : e.owed ≤ e.cap) :
    ∃ bytes cache, bytes.length = e.pending + e.primed.toNat ∧
      tqAcSettle e
        = { e with buf := e.buf ++ bytes, pending := 0, cache := cache, primed := true } := by
  unfold TqAcEnc.owed at h
  unfold tqAcSettle
  cases hp : e.primed with
  | true =>
      rw [hp] at h
      change e.buf.length + e.pending + 1 ≤ e.cap at h
      refine ⟨(e.cache + (e.low >>> 32).toUInt8)
        :: List.replicate e.pending ((0xFF : UInt8) + (e.low >>> 32).toUInt8),
        (e.low >>> 24).toUInt8, by simp, ?_⟩
      simp only [if_true]
      rw [tqAcPut_fits (by omega), tqAcDrain_fits (by simp; omega)]
      simp
  | false =>
      rw [hp] at h
      change e.buf.length + e.pending + 0 ≤ e.cap at h
      refine ⟨List.replicate e.pending ((0xFF : UInt8) + (e.low >>> 32).toUInt8),
        (e.low >>> 24).toUInt8, by simp, ?_⟩
      simp only [Bool.false_eq_true, if_false]
      rw [tqAcDrain_fits (by omega)]

/-- **One shift** takes one byte of the room. -/
theorem tqAcShiftLow_room {e : TqAcEnc} {n : Nat} (h : e.Room (n + 1)) :
    (tqAcShiftLow e).Room n := by
  have hfits := h.fits
  unfold tqAcShiftLow
  split
  · obtain ⟨bytes, cache, hlen, hset⟩ := tqAcSettle_fits (e := e) (by omega)
    rw [hset]
    refine ⟨h.clear, ?_⟩
    show (e.buf ++ bytes).length + 0 + 1 + n ≤ e.cap
    rw [List.length_append, hlen]
    unfold TqAcEnc.owed at hfits
    omega
  · refine ⟨h.clear, ?_⟩
    show e.buf.length + (e.pending + 1) + e.primed.toNat + n ≤ e.cap
    unfold TqAcEnc.owed at hfits
    omega

theorem tqAcShiftLow_iterate_room {n : Nat} :
    ∀ (k : Nat) {e : TqAcEnc}, e.Room (k + n) → (tqAcShiftLow^[k] e).Room n
  | 0, _, h => by simpa using h
  | k + 1, e, h => by
      rw [Function.iterate_succ_apply]
      exact tqAcShiftLow_iterate_room k
        (tqAcShiftLow_room (h.mono (by omega)))

theorem whileFuel_room {n : Nat} : ∀ (k : Nat) {e e' : TqAcEnc}, e.Room (k + n) →
    whileFuel (fun e => decide (e.range < tqAcTop))
      (fun e => { tqAcShiftLow e with range := e.range <<< 8 }) k e = some e' → e'.Room n
  | 0, e, e', h, he => by
      rw [whileFuel] at he
      split at he
      · cases he
      · cases he
        exact h.mono (by omega)
  | k + 1, e, e', h, he => by
      rw [whileFuel] at he
      split at he
      · have hroom := tqAcShiftLow_room (n := k + n) (h.mono (by omega))
        exact whileFuel_room k (e := { tqAcShiftLow e with range := e.range <<< 8 })
          ⟨hroom.clear, hroom.fits⟩ he
      · cases he
        exact h.mono (by omega)

/-- A symbol takes three bytes at most. -/
theorem tqAcEncSym_room {e e' : TqAcEnc} {cum freq tot : UInt32} {n : Nat} (h : e.Room (3 + n))
    (he : tqAcEncSym e cum freq tot = some e') : e'.Room n := by
  unfold tqAcEncSym at he
  split at he
  · cases he
  · refine whileFuel_room 3
      (e := { e with low := e.low + (e.range / tot).toUInt64 * cum.toUInt64,
                     range := e.range / tot * freq }) ⟨h.clear, h.fits⟩ he

/-- The flush takes five. -/
theorem tqAcEncFinish_room {e : TqAcEnc} (h : e.Room 5) : (tqAcEncFinish e).overflow = false := by
  by_cases hf : e.finished
  · rw [tqAcEncFinish, if_pos hf]
    exact h.clear
  · have hflush : ∀ v, (tqAcShiftLow^[5] (tqAcEncPick e v)).Room 0 := fun v =>
      tqAcShiftLow_iterate_room 5 (n := 0) (e := tqAcEncPick e v) ⟨h.clear, h.fits⟩
    rw [tqAcEncFinish, if_neg hf]
    generalize tqAcRound e [1, 2, 3, 4] = v
    rw [tqAcEncStrip_overflow]
    exact (hflush v).clear

end TinyLlm
