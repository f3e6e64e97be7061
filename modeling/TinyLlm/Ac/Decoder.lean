/-
# `TinyLlm.Ac.Decoder` — the decoder keeps the offset

The decoder stores neither end of the interval, only how far into it the
message points: `code` is the offset of the stream inside the interval that
the encoder had at the same symbol, `range` is the width of that interval.
`TqAcDec.At d s` says so, and it is kept as long as the message lies in every
interval on the way, which the flush of the encoder guarantees.
-/
import TinyLlm.Ac.Encoder

namespace TinyLlm

open Loop IntervalCoding

/-! ## Reading one byte -/

/-- Shifting a byte into a word that has room for it. -/
theorem shift_in {x y : UInt32} (hx : x.toNat < 2 ^ 24) (hy : y.toNat < 256) :
    ((x <<< 8) ||| y).toNat = x.toNat * 256 + y.toNat := by
  have hshift : (x <<< 8).toNat = x.toNat <<< 8 := by
    rw [UInt32.toNat_shiftLeft]
    show x.toNat <<< 8 % 2 ^ 32 = _
    rw [Nat.shiftLeft_eq]
    omega
  rw [UInt32.toNat_or, hshift, ← Nat.shiftLeft_add_eq_or_of_lt (i := 8) hy, Nat.shiftLeft_eq]

section Read
variable {d : TqAcDec} {k : Nat}

/-- The byte the decoder reads after `k` bytes is digit `k` of the stream. -/
theorem getElem?_pos (h : d.pos = min k d.buf.length) :
    (d.buf[d.pos]?).elim 0 UInt8.toNat = (digitsOf d.buf).getD k 0 := by
  rw [digitsOf, List.getD_eq_getElem?_getD, List.getElem?_map]
  rcases Nat.lt_or_ge k d.buf.length with hk | hk
  · rw [h, Nat.min_eq_left hk.le, List.getElem?_eq_getElem hk]
    rfl
  · rw [h, Nat.min_eq_right hk, List.getElem?_eq_none hk, List.getElem?_eq_none le_rfl]
    rfl

theorem pos_succ (h : d.pos = min k d.buf.length) :
    (d.buf[d.pos]?).elim d.pos (fun _ => d.pos + 1) = min (k + 1) d.buf.length := by
  rcases Nat.lt_or_ge k d.buf.length with hk | hk
  · have hpos : d.pos = k := by omega
    rw [hpos, List.getElem?_eq_getElem hk]
    show k + 1 = _
    omega
  · rw [h, Nat.min_eq_right hk, List.getElem?_eq_none le_rfl]
    show d.buf.length = _
    omega

/-- `tq_ac_get` returns the next digit of the stream. -/
theorem tqAcGet_digit (h : d.pos = min k d.buf.length) :
    (tqAcGet d).1.toNat = (digitsOf d.buf).getD k 0 ∧
      (tqAcGet d).2.pos = min (k + 1) d.buf.length ∧ (tqAcGet d).2.buf = d.buf := by
  have hdig := getElem?_pos h
  have hpos := pos_succ h
  unfold tqAcGet
  cases hb : d.buf[d.pos]? with
  | none =>
      rw [hb] at hdig hpos
      exact ⟨hdig, hpos, rfl⟩
  | some b =>
      rw [hb] at hdig hpos
      exact ⟨hdig, hpos, rfl⟩

/-- One round of the initial loop. -/
theorem tqAcDecLoad_digit (h : d.pos = min k d.buf.length) (hc : d.code.toNat < 2 ^ 24) :
    (tqAcDecLoad d).code.toNat = d.code.toNat * 256 + (digitsOf d.buf).getD k 0 ∧
      (tqAcDecLoad d).pos = min (k + 1) d.buf.length ∧ (tqAcDecLoad d).buf = d.buf ∧
      (tqAcDecLoad d).range = d.range := by
  have hdig := getElem?_pos h
  have hpos := pos_succ h
  unfold tqAcDecLoad
  cases hb : d.buf[d.pos]? with
  | none =>
      rw [hb] at hdig hpos
      refine ⟨?_, hpos, rfl, rfl⟩
      rw [← hdig]
      exact shift_in hc (by decide)
  | some b =>
      rw [hb] at hdig hpos
      refine ⟨?_, hpos, rfl, rfl⟩
      rw [← hdig]
      exact shift_in hc (UInt8.toNat_lt b)

end Read

/-! ## The decoder is in step with an interval -/

structure TqAcDec.At (d : TqAcDec) (s : Iv) : Prop where
  code : d.code.toNat = s.offset 256 (digitsOf d.buf)
  width : d.range.toNat = s.width
  floor : 2 ^ 24 ≤ s.width
  inside : s.Contains 256 (digitsOf d.buf)
  pos : d.pos = min s.digits d.buf.length

/-- The four bytes of `tq_ac_dec_init`. -/
theorem tqAcDecLoad_iterate (d : TqAcDec) (hp : d.pos = 0) (hc : d.code = 0) :
    ∀ n ≤ 4, (tqAcDecLoad^[n] d).code.toNat = prefixVal 256 (digitsOf d.buf) n ∧
      (tqAcDecLoad^[n] d).code.toNat < 256 ^ n ∧
      (tqAcDecLoad^[n] d).pos = min n d.buf.length ∧
      (tqAcDecLoad^[n] d).buf = d.buf ∧ (tqAcDecLoad^[n] d).range = d.range := by
  intro n
  induction n with
  | zero =>
      intro _
      refine ⟨?_, ?_, ?_, rfl, rfl⟩
      · rw [Function.iterate_zero_apply, hc]
        rfl
      · rw [Function.iterate_zero_apply, hc]
        exact Nat.one_pos
      · rw [Function.iterate_zero_apply, hp, Nat.zero_min]
  | succ n ih =>
      intro hn
      obtain ⟨hcode, hlt, hpos, hbuf, hrange⟩ := ih (by omega)
      rw [Function.iterate_succ_apply']
      generalize tqAcDecLoad^[n] d = d' at hcode hlt hpos hbuf hrange ⊢
      have hpow : 256 ^ n ≤ 256 ^ 3 := Nat.pow_le_pow_right (by decide) (by omega)
      rw [← hbuf] at hcode hpos ⊢
      obtain ⟨h₁, h₂, h₃, h₄⟩ := tqAcDecLoad_digit hpos (by omega)
      have hdig := digitsOf_lt d'.buf n
      refine ⟨?_, ?_, h₂, h₃, h₄.trans hrange⟩
      · rw [h₁, prefixVal, hcode]
      · rw [h₁, pow_succ]
        omega

/-- `tq_ac_dec_init` is in step with the first interval. -/
theorem dec_at_init {buf : List UInt8}
    (h : Iv.Contains 256 ⟨0, 2 ^ 32 - 1, 4⟩ (digitsOf buf)) :
    (tqAcDecInit buf).At ⟨0, 2 ^ 32 - 1, 4⟩ := by
  obtain ⟨hcode, -, hpos, hbuf, hrange⟩ := tqAcDecLoad_iterate
    { buf := buf, pos := 0, range := 0xFFFFFFFF, code := 0, r := 0, starved := false } rfl rfl
    4 le_rfl
  unfold tqAcDecInit
  refine ⟨?_, ?_, by decide, ?_, ?_⟩
  · rw [hcode, hbuf]
    exact (Nat.sub_zero _).symm
  · rw [hrange]
    rfl
  · rw [hbuf]
    exact h
  · rw [hpos, hbuf]

theorem tqAcDecInit_buf (buf : List UInt8) : (tqAcDecInit buf).buf = buf :=
  (tqAcDecLoad_iterate
    { buf := buf, pos := 0, range := 0xFFFFFFFF, code := 0, r := 0, starved := false } rfl rfl
    4 le_rfl).2.2.2.1

/-! ## Decoding one symbol -/

section Symbol
variable {d : TqAcDec} {s : Iv} {t : Slot} {cum freq tot : UInt32}

/-- **The target** lands in the slot that the message lies in. -/
theorem tqAcDecTarget_at (h : d.At s) (htot : t.tot ≤ 2 ^ 16) (ht : tot.toNat = t.tot)
    (hin : (s.narrow t).Contains 256 (digitsOf d.buf)) :
    ∃ target, tqAcDecTarget d tot = some (target, { d with r := d.range / tot }) ∧
      t.cum ≤ target.toNat ∧ target.toNat < t.cum + t.freq := by
  have htpos := t.tot_pos
  have hfits := t.fits
  have hr : (d.range / tot).toNat = s.width / t.tot := by
    rw [UInt32.toNat_div, h.width, ht]
  have hwide : t.tot ≤ s.width := Nat.le_trans htot (Nat.le_trans (by decide) h.floor)
  have hpart : 0 < s.width / t.tot := Nat.div_pos hwide htpos
  have hzero : tot ≠ 0 := fun hz => by
    rw [hz] at ht
    exact absurd ht.symm (Nat.ne_of_gt htpos)
  have hrzero : d.range / tot ≠ 0 := fun hz => by
    rw [hz] at hr
    exact absurd hr.symm (Nat.ne_of_gt hpart)
  obtain ⟨hlo, hhi⟩ := Iv.target_bounds hin
  have htarget : (d.code / (d.range / tot)).toNat
      = s.offset 256 (digitsOf d.buf) / (s.width / t.tot) := by
    rw [UInt32.toNat_div, hr, h.code]
  have hlt : ¬ d.code / (d.range / tot) ≥ tot := by
    rw [ge_iff_le, UInt32.le_iff_toNat_le, htarget, ht]
    omega
  refine ⟨d.code / (d.range / tot), ?_, ?_, ?_⟩
  · simp only [tqAcDecTarget, if_neg hzero, if_neg hrzero, if_neg hlt]
  · rw [htarget]
    exact hlo
  · rw [htarget]
    exact hhi

/-- The renormalising loop of the decoder follows that of the encoder. -/
theorem tqAcDecShift_at :
    ∀ (n : Nat) {d : TqAcDec} {s : Iv}, d.code.toNat = s.offset 256 (digitsOf d.buf) →
      d.range.toNat = s.width → 2 ^ 24 ≤ s.width * 256 ^ n →
      (s.renorm 256 (2 ^ 24) n).Contains 256 (digitsOf d.buf) →
      d.pos = min s.digits d.buf.length →
      ∃ d', whileFuel (fun d => decide (d.range < tqAcTop)) tqAcDecShift n d = some d' ∧
        d'.At (s.renorm 256 (2 ^ 24) n) ∧ d'.buf = d.buf := by
  intro n
  induction n with
  | zero =>
      intro d s hcode hr hn hin hpos
      have hge : ¬ d.range < tqAcTop := by
        rw [UInt32.lt_iff_toNat_lt, hr]
        simpa [tqAcTop] using hn
      refine ⟨d, whileFuel_done (by simpa using hge) 0, ⟨hcode, hr, ?_, hin, hpos⟩, rfl⟩
      show 2 ^ 24 ≤ s.width
      simpa using hn
  | succ n ih =>
      intro d s hcode hr hn hin hpos
      have hin₀ := Iv.contains_of_renorm (digitsOf_lt d.buf) (n + 1) hin
      by_cases hlt : d.range < tqAcTop
      · have hw : s.width < 2 ^ 24 := by
          rw [← hr]
          exact UInt32.lt_iff_toNat_lt.mp hlt
        rw [Iv.renorm, if_pos hw] at hin ⊢
        rw [whileFuel_step (by simpa using hlt)]
        obtain ⟨hget, hpos', hbuf'⟩ := tqAcGet_digit hpos
        have hoff := Iv.offset_lt hin₀
        have hdig := digitsOf_lt d.buf s.digits
        have hcode' : (tqAcDecShift d).code.toNat = (s.grow 256).offset 256 (digitsOf d.buf) := by
          rw [Iv.offset_grow hin₀, ← hcode, ← hget]
          exact shift_in (by omega) (by omega)
        obtain ⟨d', hd', hat, hbuf⟩ := ih (d := tqAcDecShift d) (s := s.grow 256)
          (by rw [hcode']; exact congrArg _ (congrArg _ hbuf'.symm))
          (by show (d.range <<< 8).toNat = _; rw [range_shift hlt, hr]; rfl)
          (by simpa [Iv.grow, pow_succ, Nat.mul_assoc, Nat.mul_comm 256] using hn)
          (by show Iv.Contains 256 _ (digitsOf (tqAcGet d).2.buf); rw [hbuf']; exact hin)
          (by show (tqAcGet d).2.pos = min _ (tqAcGet d).2.buf.length; rw [hpos', hbuf']; rfl)
        exact ⟨d', hd', hat, hbuf.trans hbuf'⟩
      · have hw : ¬ s.width < 2 ^ 24 := by
          rw [← hr]
          exact fun h => hlt (UInt32.lt_iff_toNat_lt.mpr h)
        rw [Iv.renorm, if_neg hw] at hin ⊢
        exact ⟨d, whileFuel_done (by simpa using hlt) _, ⟨hcode, hr, by omega, hin, hpos⟩, rfl⟩

/-- **The update** takes the decoder to the interval after the symbol. -/
theorem tqAcDecUpdate_at (h : d.At s) (htot : t.tot ≤ 2 ^ 16) (hc : cum.toNat = t.cum)
    (hf : freq.toNat = t.freq) (ht : tot.toNat = t.tot)
    (hin : (s.code 256 (2 ^ 24) 3 t).Contains 256 (digitsOf d.buf)) :
    ∃ d', tqAcDecUpdate { d with r := d.range / tot } cum freq = some d' ∧
      d'.At (s.code 256 (2 ^ 24) 3 t) ∧ d'.buf = d.buf := by
  have hwlt : s.width < 2 ^ 32 := h.width ▸ UInt32.toNat_lt d.range
  have hwide : t.tot ≤ s.width := Nat.le_trans htot (Nat.le_trans (by decide) h.floor)
  have hpart := Iv.narrow_end_le s t
  have hfreq := Iv.freq_le_narrow_width hwide
  have hfpos := t.freq_pos
  have hnarrow := Iv.contains_of_code (digitsOf_lt d.buf) hin
  have hcum := Iv.cum_mul_le_offset hnarrow
  have hr : (d.range / tot).toNat = s.width / t.tot := by
    rw [UInt32.toNat_div, h.width, ht]
  have hmul : (cum * (d.range / tot)).toNat = t.cum * (s.width / t.tot) := by
    rw [UInt32.toNat_mul, hc, hr]
    exact Nat.mod_eq_of_lt (by rw [Nat.mul_comm]; omega)
  refine tqAcDecShift_at 3 (s := s.narrow t) ?_ ?_ (by omega) hin h.pos
  · show (d.code - cum * (d.range / tot)).toNat = _
    rw [UInt32.toNat_sub_of_le _ _ (UInt32.le_iff_toNat_le.mpr (by rw [hmul, h.code]; exact hcum)),
      hmul, h.code, Iv.offset_narrow]
  · show (d.range / tot * freq).toNat = s.width / t.tot * t.freq
    rw [UInt32.toNat_mul, hr, hf]
    exact Nat.mod_eq_of_lt (by omega)

end Symbol

end TinyLlm
