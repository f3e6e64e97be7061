/-
# `TinyLlm.Ac.Message` — messages of arbitrary symbols, and how they end

A symbol is any triple that `tq_ac_enc_sym` admits, with no table behind it.
The interval of a message is computed from its triples alone, so what the
flush leaves can be said without running the coder: `digits` bytes that spell
`flushPoint`, the first multiple of `2 ^ 24` in the interval
(`tqAcEncFlush_spec`), less their trailing zeros.  There are four digits at
first, and one more for every shift.
-/
import TinyLlm.Ac.Room

namespace TinyLlm

open IntervalCoding Loop

/-- A triple that `tq_ac_enc_sym` admits. -/
structure AcTriple where
  cum : UInt32
  freq : UInt32
  tot : UInt32
  freq_pos : 1 ≤ freq.toNat
  fits : cum.toNat + freq.toNat ≤ tot.toNat
  tot_le : tot.toNat ≤ 2 ^ 16

def AcTriple.slot (t : AcTriple) : Slot where
  cum := t.cum.toNat
  freq := t.freq.toNat
  tot := t.tot.toNat
  freq_pos := t.freq_pos
  fits := t.fits

/-- The calls of `tq_ac_enc_sym`, in order. -/
def codeTriples (e : TqAcEnc) (msg : List AcTriple) : Option TqAcEnc :=
  msg.foldlM (fun e t => tqAcEncSym e t.cum t.freq t.tot) e

/-- `tq_ac_enc_init`, the symbols, `tq_ac_enc_finish`. -/
def encodeTriples (cap : Nat) (msg : List AcTriple) : Option TqAcEnc :=
  (codeTriples (tqAcEncInit cap) msg).map tqAcEncFinish

/-- The interval after a message. -/
def tripleInterval (s : Iv) (msg : List AcTriple) : Iv :=
  msg.foldl (fun s t => s.code 256 (2 ^ 24) 3 t.slot) s

/-- The interval of `tq_ac_enc_init`. -/
def initIv : Iv := ⟨0, 2 ^ 32 - 1, 4⟩

/-- A symbol adds at most three digits. -/
theorem tripleInterval_digits_le : ∀ (msg : List AcTriple) (s : Iv),
    (tripleInterval s msg).digits ≤ s.digits + 3 * msg.length
  | [], _ => Nat.le_refl _
  | t :: msg, s => by
      have hstep : (s.code 256 (2 ^ 24) 3 t.slot).digits ≤ s.digits + 3 :=
        Iv.renorm_digits_le 3 (s.narrow t.slot)
      have hrest := tripleInterval_digits_le msg (s.code 256 (2 ^ 24) 3 t.slot)
      rw [List.length_cons]
      exact hrest.trans (by omega)

/-- Coding always ends, in the interval of the message. -/
theorem codeTriples_at : ∀ (msg : List AcTriple) {e : TqAcEnc} {s : Iv}, e.At s →
    ∃ e', codeTriples e msg = some e' ∧ e'.At (tripleInterval s msg) ∧
      ∀ n, e.Room (3 * msg.length + n) → e'.Room n := by
  intro msg
  induction msg with
  | nil => intro e s h; exact ⟨e, rfl, h, fun n hn => hn.mono (by omega)⟩
  | cons t msg ih =>
      intro e s h
      obtain ⟨e₁, he₁, hat₁, -⟩ := tqAcEncSym_at h t.slot t.tot_le rfl rfl rfl
      obtain ⟨e₂, he₂, hat₂, hroom₂⟩ := ih hat₁
      refine ⟨e₂, ?_, hat₂, fun n hn => hroom₂ n ?_⟩
      · rw [codeTriples, List.foldlM_cons, he₁]
        exact he₂
      · rw [List.length_cons] at hn
        exact tqAcEncSym_room (hn.mono (by omega)) he₁

/-! ## What the flush leaves -/

/-- **The flush.**  Before the zeros go the buffer spells the point. -/
theorem tqAcEncFlush_spec {e : TqAcEnc} {s : Iv} (h : e.At s)
    (ho : (tqAcEncFlush e).overflow = false) :
    (tqAcEncFlush e).buf.length = s.digits ∧
      val 256 (digitsOf (tqAcEncFlush e).buf) = flushPoint s := by
  obtain ⟨d, -, hflush, hrep, ⟨hp, hn, hc⟩, hlow, -⟩ := tqAcEncFlush_at h ho
  have hlen : (tqAcEncFlush e).buf.length = s.digits := by
    have hd := hrep.digits
    simp only [hp, hn, Bool.toNat_true] at hd
    omega
  refine ⟨hlen, ?_⟩
  have hval := prefixVal_of_flushed hrep hp hn hc hlow
  have hdig : (digitsOf (tqAcEncFlush e).buf).length = s.digits := (List.length_map _).trans hlen
  rw [prefixVal_of_le (by omega), hdig, Nat.add_sub_cancel_left, hflush] at hval
  exact Nat.eq_of_mul_eq_mul_right (by decide) hval

/-- Three digits of the point are zeros, so the message never has them. -/
theorem flushPoint_dvd (s : Iv) : 256 ^ 3 ∣ flushPoint s := ⟨_, Nat.mul_comm _ _⟩

/-- How short a message is, read off its point. -/
theorem length_strip_le_iff {bytes : List UInt8} {n : Nat} (hn : n ≤ bytes.length) :
    (bytes.rdropWhile (· == 0)).length ≤ n ↔
      256 ^ (bytes.length - n) ∣ val 256 (digitsOf bytes) := by
  have hlen : (digitsOf bytes).length = bytes.length := List.length_map _
  have hdig : ∀ d ∈ digitsOf bytes, d < 256 := fun d hd => by
    obtain ⟨b, -, rfl⟩ := List.mem_map.mp hd
    exact UInt8.toNat_lt b
  have h := length_rdropWhile_le_iff (b := 256) (by decide) (digitsOf bytes) hdig n (by omega)
  rw [← digitsOf_rdropWhile, hlen] at h
  rw [← h]
  exact Eq.to_iff (congrArg (· ≤ n) (List.length_map _).symm)

/-- The message of an interval: how short it is depends on the point alone. -/
theorem tqAcEncFinish_length_le_iff {e : TqAcEnc} {s : Iv} (h : e.At s)
    (ho : (tqAcEncFinish e).overflow = false) {n : Nat} (hn : n ≤ s.digits) :
    (tqAcEncFinish e).buf.length ≤ n ↔ 256 ^ (s.digits - n) ∣ flushPoint s := by
  rw [tqAcEncFinish_eq h.unfinished] at ho ⊢
  rw [tqAcEncStrip_overflow] at ho
  obtain ⟨hlen, hval⟩ := tqAcEncFlush_spec h ho
  rw [← hval, ← hlen]
  exact length_strip_le_iff (by omega)

end TinyLlm
