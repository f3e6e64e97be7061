/-
# `TinyLlm.Ac.Encoder` — the encoder keeps an exact interval

The encoder never holds its interval: the digits that are settled are in the
buffer, one byte waits in `cache`, a run of `0xFF`s is only counted, and the
rest is `low`, which may have a carry above its 32 bits.  `Rep e s` says which
interval `s` of the library that state stands for:

    s.lo = ((head + 1) * 256 ^ pending - 1) * 2 ^ 32 + low,   s.digits = len + primed + pending + 4

where `head` is the number spelled by the buffer and the cached byte.

The carry is safe because it can only come once.  `span` bounds `low + width`
by `2 ^ 33`, so after a carry into a byte the interval ends below the next
one; a byte that took it and became `0xFF` (or was never there, `primed = 0`)
is `sealed`, and then `low + width ≤ 2 ^ 32`.
-/
import TinyLlm.Lib.Interval
import TinyLlm.Ac.Coder

namespace TinyLlm

open Loop IntervalCoding

/-! ## Bytes as digits -/

/-- A byte string as a digit stream. -/
def digitsOf (l : List UInt8) : List Nat := l.map UInt8.toNat

theorem digitsOf_append (l m : List UInt8) : digitsOf (l ++ m) = digitsOf l ++ digitsOf m :=
  List.map_append

theorem digitsOf_lt (l : List UInt8) (i : Nat) : (digitsOf l).getD i 0 < 256 := by
  rw [digitsOf, List.getD_eq_getElem?_getD, List.getElem?_map]
  cases l[i]? with
  | none => exact Nat.zero_lt_succ _
  | some b => exact UInt8.toNat_lt b

theorem digitsOf_rdropWhile (l : List UInt8) :
    digitsOf (l.rdropWhile (· == 0)) = (digitsOf l).rdropWhile (· == 0) := by
  induction l using List.reverseRecOn with
  | nil => rfl
  | append_singleton l b ih =>
      have hb : (b == 0) = (b.toNat == 0) := by
        rw [Bool.eq_iff_iff, beq_iff_eq, beq_iff_eq, ← UInt8.toNat_inj]
        rfl
      rw [digitsOf_append, List.rdropWhile_concat]
      show _ = (digitsOf l ++ [b.toNat]).rdropWhile (· == 0)
      rw [List.rdropWhile_concat, hb, ← ih]
      split
      · rfl
      · exact digitsOf_append l [b]

/-! ## The machine arithmetic of `tq_ac_shift_low` -/

section Words
variable (low : UInt64)

theorem low_hi_ne_zero : (low >>> 32).toUInt32 ≠ 0 ↔ 2 ^ 32 ≤ low.toNat := by
  have hlt := UInt64.toNat_lt low
  have h : (low >>> 32).toUInt32.toNat = low.toNat / 2 ^ 32 := by
    rw [UInt64.toNat_toUInt32, UInt64.toNat_shiftRight]
    show low.toNat >>> 32 % 2 ^ 32 = _
    rw [Nat.shiftRight_eq_div_pow]
    omega
  rw [Ne, ← UInt32.toNat_inj, h]
  show ¬ low.toNat / 2 ^ 32 = 0 ↔ _
  omega

theorem low_lt_ff : low.toUInt32 < 0xFF000000 ↔ low.toNat % 2 ^ 32 < 0xFF000000 := by
  rw [UInt32.lt_iff_toNat_lt, UInt64.toNat_toUInt32]
  rfl

theorem low_carry : (low >>> 32).toUInt8.toNat = low.toNat / 2 ^ 32 % 256 := by
  rw [UInt64.toNat_toUInt8, UInt64.toNat_shiftRight]
  show low.toNat >>> 32 % 2 ^ 8 = _
  rw [Nat.shiftRight_eq_div_pow]

theorem low_cache : (low >>> 24).toUInt8.toNat = low.toNat / 2 ^ 24 % 256 := by
  rw [UInt64.toNat_toUInt8, UInt64.toNat_shiftRight]
  show low.toNat >>> 24 % 2 ^ 8 = _
  rw [Nat.shiftRight_eq_div_pow]

theorem low_shift : (low.toUInt32 <<< 8).toUInt64.toNat = low.toNat % 2 ^ 24 * 256 := by
  rw [UInt32.toNat_toUInt64, UInt32.toNat_shiftLeft, UInt64.toNat_toUInt32]
  show (low.toNat % 2 ^ 32) <<< 8 % 2 ^ 32 = _
  rw [Nat.shiftLeft_eq]
  omega

end Words

/-- A shift by a byte that does not overflow. -/
theorem range_shift {x : UInt32} (h : x < tqAcTop) : (x <<< 8).toNat = x.toNat * 256 := by
  have hx : x.toNat < 2 ^ 24 := UInt32.lt_iff_toNat_lt.mp h
  rw [UInt32.toNat_shiftLeft]
  show x.toNat <<< 8 % 2 ^ 32 = _
  rw [Nat.shiftLeft_eq]
  omega

/-! ## What the encoder has written -/

namespace TqAcEnc

/-- The bytes that are settled but for one carry: the buffer and the cache. -/
def committed (e : TqAcEnc) : List UInt8 := if e.primed then e.buf ++ [e.cache] else e.buf

/-- The number the committed bytes spell. -/
def head (e : TqAcEnc) : Nat := val 256 (digitsOf e.committed)

/-- No carry may reach the committed bytes any more. -/
def Sealed (e : TqAcEnc) : Prop := e.primed = false ∨ e.cache = 0xFF

end TqAcEnc

/-- A byte that was accepted is at the end of the buffer. -/
theorem tqAcPut_ok {e : TqAcEnc} {byte : UInt8} (h : (tqAcPut e byte).overflow = false) :
    tqAcPut e byte = { e with buf := e.buf ++ [byte] } ∧ e.overflow = false := by
  unfold tqAcPut at h ⊢
  split
  · next hlt => rw [if_pos hlt] at h; exact ⟨rfl, h⟩
  · next hlt => rw [if_neg hlt] at h; exact absurd h Bool.noConfusion

theorem tqAcDrain_ok {carry : UInt8} : ∀ {n : Nat} {e : TqAcEnc},
    (tqAcDrain carry n e).overflow = false →
      tqAcDrain carry n e
        = { e with buf := e.buf ++ List.replicate n ((0xFF : UInt8) + carry), pending := 0 } ∧
      e.overflow = false
  | 0, e, h => ⟨by simp [tqAcDrain], h⟩
  | n + 1, e, h => by
      obtain ⟨hd, ho⟩ := tqAcDrain_ok (n := n) (e := tqAcPut e (0xFF + carry)) h
      obtain ⟨hp, ho'⟩ := tqAcPut_ok ho
      refine ⟨?_, ho'⟩
      show tqAcDrain carry n (tqAcPut e (0xFF + carry)) = _
      rw [hd, hp, List.replicate_succ, List.append_assoc]
      rfl

/-- The bytes `tqAcSettle` writes: the cached one and the pending run, each
with the carry added. -/
theorem tqAcSettle_ok {e : TqAcEnc} (h : (tqAcSettle e).overflow = false) :
    tqAcSettle e = { e with
      buf := e.buf ++ (if e.primed then [e.cache + (e.low >>> 32).toUInt8] else [])
        ++ List.replicate e.pending ((0xFF : UInt8) + (e.low >>> 32).toUInt8),
      pending := 0, cache := (e.low >>> 24).toUInt8, primed := true } ∧
    e.overflow = false := by
  unfold tqAcSettle at h ⊢
  obtain ⟨hd, ho⟩ := tqAcDrain_ok h
  cases hp : e.primed with
  | true =>
      rw [hp] at hd ho
      obtain ⟨hq, ho'⟩ := tqAcPut_ok ho
      refine ⟨?_, ho'⟩
      simp only [if_true] at hd hq ⊢
      rw [hd, hq]
  | false =>
      rw [hp] at hd ho
      refine ⟨?_, ho⟩
      simp only [Bool.false_eq_true, if_false] at hd ⊢
      rw [hd, List.append_nil]

/-- The overflow flag is never taken back. -/
theorem overflow_of_shiftLow {e : TqAcEnc} (h : (tqAcShiftLow e).overflow = false) :
    e.overflow = false := by
  unfold tqAcShiftLow at h
  split at h
  · exact (tqAcSettle_ok h).2
  · exact h

/-! ## The representation -/

structure Rep (e : TqAcEnc) (s : Iv) : Prop where
  digits : s.digits = e.buf.length + e.primed.toNat + e.pending + 4
  lo : s.lo + 2 ^ 32 = (e.head + 1) * 256 ^ e.pending * 2 ^ 32 + e.low.toNat
  unprimed : e.primed = false → e.buf = []
  span : e.low.toNat + s.width ≤ 2 ^ 33
  noCarry : e.Sealed → e.low.toNat + s.width ≤ 2 ^ 32

/-- The state after `tq_ac_enc_init` stands for `[0, 1)`, less one unit. -/
theorem rep_init (cap : Nat) : Rep (tqAcEncInit cap) ⟨0, 2 ^ 32 - 1, 4⟩ where
  digits := rfl
  lo := by simp [TqAcEnc.head, TqAcEnc.committed, tqAcEncInit, digitsOf]
  unprimed _ := rfl
  span := by simp [tqAcEncInit]
  noCarry _ := by simp [tqAcEncInit]

/-- A narrower interval with the same lower end is still represented. -/
theorem Rep.shrink {e : TqAcEnc} {s : Iv} (h : Rep e s) {w : Nat} (hw : w ≤ s.width) :
    Rep e { s with width := w } where
  digits := h.digits
  lo := h.lo
  unprimed := h.unprimed
  span := Nat.le_trans (Nat.add_le_add_left hw _) h.span
  noCarry hs := Nat.le_trans (Nat.add_le_add_left hw _) (h.noCarry hs)

/-- Moving `low` up inside the interval. -/
theorem Rep.advance {e e' : TqAcEnc} {s s' : Iv} (h : Rep e s) (d : Nat)
    (he : e' = { e with low := e'.low, range := e'.range, finished := e'.finished })
    (hlow : e'.low.toNat = e.low.toNat + d)
    (hs : s'.lo = s.lo + d) (hd : s'.digits = s.digits) (hw : d + s'.width ≤ s.width) :
    Rep e' s' := by
  have hb : e'.buf = e.buf := by rw [he]
  have hp : e'.primed = e.primed := by rw [he]
  have hc : e'.cache = e.cache := by rw [he]
  have hn : e'.pending = e.pending := by rw [he]
  have hh : e'.head = e.head := by
    simp only [TqAcEnc.head, TqAcEnc.committed, hb, hp, hc]
  refine ⟨?_, ?_, ?_, ?_, ?_⟩
  · rw [hd, h.digits, hb, hp, hn]
  · rw [hs, hh, hn, hlow]
    have := h.lo
    omega
  · rw [hp, hb]
    exact h.unprimed
  · have := h.span
    omega
  · intro hsl
    have := h.noCarry (by simpa only [TqAcEnc.Sealed, hp, hc] using hsl)
    omega

/-! ## Shifting out a byte -/

section Shift
variable {e : TqAcEnc} {s : Iv}

/-- A run of `0xFF`s is counted, not written. -/
theorem Rep.shift_pending (h : Rep e s) (hlo : 0xFF000000 ≤ e.low.toNat)
    (hhi : e.low.toNat < 2 ^ 32) (hw : s.width < 2 ^ 24) :
    Rep { e with pending := e.pending + 1, low := (e.low.toUInt32 <<< 8).toUInt64 }
      (s.grow 256) := by
  have hlow := low_shift e.low
  refine ⟨?_, ?_, h.unprimed, ?_, ?_⟩
  · have := h.digits
    simp only [Iv.grow]
    omega
  · have hl := h.lo
    show s.lo * 256 + 2 ^ 32 = (e.head + 1) * 256 ^ (e.pending + 1) * 2 ^ 32 + _
    simp only [hlow, pow_succ 256, ← Nat.mul_assoc]
    generalize (e.head + 1) * 256 ^ e.pending = x at hl ⊢
    omega
  · show (e.low.toUInt32 <<< 8).toUInt64.toNat + s.width * 256 ≤ 2 ^ 33
    rw [hlow]
    omega
  · intro hs
    have := h.noCarry hs
    show (e.low.toUInt32 <<< 8).toUInt64.toNat + s.width * 256 ≤ 2 ^ 32
    rw [hlow]
    omega

/-- The value of the settled bytes, with and without a carry. -/
theorem head_settle (h : Rep e s) (hw : 0 < s.width) :
    val 256 (digitsOf (e.buf ++ (if e.primed then [e.cache + (e.low >>> 32).toUInt8] else [])
        ++ List.replicate e.pending ((0xFF : UInt8) + (e.low >>> 32).toUInt8))) + 1
      = (e.head + 1) * 256 ^ e.pending + e.low.toNat / 2 ^ 32 := by
  have hspan := h.span
  have hcarry := low_carry e.low
  rcases Nat.lt_or_ge e.low.toNat (2 ^ 32) with hlt | hge
  · -- no carry: the bytes go out as they are
    have h0 : (e.low >>> 32).toUInt8 = 0 := by
      rw [← UInt8.toNat_inj, hcarry]
      show _ = 0
      omega
    have hz : e.low.toNat / 2 ^ 32 = 0 := Nat.div_eq_of_lt hlt
    have hbuf : e.buf ++ (if e.primed then [e.cache + 0] else []) = e.committed := by
      cases hp : e.primed <;> simp [TqAcEnc.committed, hp]
    have hrep : digitsOf (List.replicate e.pending ((0xFF : UInt8) + 0)) =
        List.replicate e.pending 255 := by
      simp [digitsOf]
    rw [h0, hbuf, digitsOf_append, hrep, hz, Nat.add_zero]
    exact val_append_tops (b := 256) (by decide) _ _
  · -- a carry: the cached byte takes it, the run turns to zeros
    have h1 : (e.low >>> 32).toUInt8.toNat = 1 := by
      rw [hcarry]
      omega
    have hone : e.low.toNat / 2 ^ 32 = 1 := by omega
    have hopen : ¬ e.Sealed := fun hs => by
      have := h.noCarry hs
      omega
    simp only [TqAcEnc.Sealed, not_or, Bool.not_eq_false] at hopen
    obtain ⟨hp, hff⟩ := hopen
    have hcache : (e.cache + (e.low >>> 32).toUInt8).toNat = e.cache.toNat + 1 := by
      have hne : e.cache.toNat ≠ 255 := fun hc => hff (by rw [← UInt8.toNat_inj, hc]; rfl)
      have hlt := UInt8.toNat_lt e.cache
      rw [UInt8.toNat_add, h1]
      omega
    have hwrap : ((0xFF : UInt8) + (e.low >>> 32).toUInt8).toNat = 0 := by
      rw [UInt8.toNat_add, h1]
      rfl
    have hrep : digitsOf (List.replicate e.pending ((0xFF : UInt8) + (e.low >>> 32).toUInt8))
        = List.replicate e.pending 0 := by
      simp [digitsOf, hwrap]
    have hdig : digitsOf (e.buf ++ [e.cache + (e.low >>> 32).toUInt8])
        = digitsOf e.buf ++ [e.cache.toNat + 1] := by
      rw [digitsOf_append]
      simp [digitsOf, hcache]
    have hhead : e.head = val 256 (digitsOf e.buf) * 256 + e.cache.toNat := by
      rw [TqAcEnc.head, TqAcEnc.committed, if_pos hp, digitsOf_append]
      exact val_concat _
    rw [if_pos hp, digitsOf_append _ (List.replicate _ _), hrep, hdig, val_append_zeros,
      val_concat, hone, hhead, Nat.add_assoc]

/-- The byte that leaves `low` can be settled: the pending run ends. -/
theorem Rep.shift_settle (h : Rep e s) (hw : 0 < s.width) (hwt : s.width < 2 ^ 24)
    (hs : 2 ^ 32 ≤ e.low.toNat ∨ e.low.toNat % 2 ^ 32 < 0xFF000000)
    (hov : (tqAcSettle e).overflow = false) :
    Rep { tqAcSettle e with low := (e.low.toUInt32 <<< 8).toUInt64 } (s.grow 256) := by
  obtain ⟨hset, -⟩ := tqAcSettle_ok hov
  have hspan := h.span
  have hlow := low_shift e.low
  have hcache := low_cache e.low
  have hsettle := head_settle h hw
  rw [hset]
  refine ⟨?_, ?_, ?_, ?_, ?_⟩
  · have := h.digits
    cases hp : e.primed <;> simp [hp, Iv.grow] at this ⊢ <;> omega
  · have hl := h.lo
    have hhead : ∀ e' : TqAcEnc, e'.primed = true →
        e'.head = val 256 (digitsOf e'.buf) * 256 + e'.cache.toNat := fun e' hp => by
      rw [TqAcEnc.head, TqAcEnc.committed, if_pos hp, digitsOf_append]
      exact val_concat _
    rw [hhead _ rfl]
    show s.lo * 256 + 2 ^ 32 = (val 256 (digitsOf _) * 256 + (e.low >>> 24).toUInt8.toNat + 1)
      * 256 ^ 0 * 2 ^ 32 + (e.low.toUInt32 <<< 8).toUInt64.toNat
    rw [hlow, hcache]
    generalize val 256 (digitsOf _) = v at hsettle ⊢
    generalize (e.head + 1) * 256 ^ e.pending = x at hsettle hl
    omega
  · intro hp
    exact absurd hp Bool.noConfusion
  · show (e.low.toUInt32 <<< 8).toUInt64.toNat + s.width * 256 ≤ 2 ^ 33
    rw [hlow]
    omega
  · -- sealed after settling: a carry made the new cached byte `0xFF`
    intro hsl
    have hff : (e.low >>> 24).toUInt8 = 0xFF := by
      rcases hsl with hp | hc
      · exact absurd hp Bool.noConfusion
      · exact hc
    have hff' : e.low.toNat / 2 ^ 24 % 256 = 255 := by
      rw [← hcache, hff]
      rfl
    show (e.low.toUInt32 <<< 8).toUInt64.toNat + s.width * 256 ≤ 2 ^ 32
    rw [hlow]
    omega

/-- **One shift** makes the represented interval one digit finer. -/
theorem rep_shiftLow (h : Rep e s) (hw : 0 < s.width) (hwt : s.width < 2 ^ 24)
    (hov : (tqAcShiftLow e).overflow = false) :
    Rep (tqAcShiftLow e) (s.grow 256) := by
  unfold tqAcShiftLow at hov ⊢
  by_cases hc : (e.low >>> 32).toUInt32 ≠ 0 ∨ e.low.toUInt32 < 0xFF000000
  · simp only [if_pos hc] at hov ⊢
    refine h.shift_settle hw hwt ?_ hov
    exact hc.imp (low_hi_ne_zero e.low).mp (low_lt_ff e.low).mp
  · simp only [if_neg hc] at hov ⊢
    have hc₁ : ¬ 2 ^ 32 ≤ e.low.toNat := fun hge => hc (.inl ((low_hi_ne_zero e.low).mpr hge))
    have hc₂ : ¬ e.low.toNat % 2 ^ 32 < 0xFF000000 :=
      fun hlt => hc (.inr ((low_lt_ff e.low).mpr hlt))
    exact h.shift_pending (by omega) (by omega) hwt

end Shift

/-! ## What a shift leaves alone -/

@[simp] theorem tqAcPut_range (e : TqAcEnc) (b : UInt8) : (tqAcPut e b).range = e.range := by
  unfold tqAcPut
  split <;> rfl

@[simp] theorem tqAcPut_finished (e : TqAcEnc) (b : UInt8) :
    (tqAcPut e b).finished = e.finished := by
  unfold tqAcPut
  split <;> rfl

@[simp] theorem tqAcPut_low (e : TqAcEnc) (b : UInt8) : (tqAcPut e b).low = e.low := by
  unfold tqAcPut
  split <;> rfl

/-- What `tqAcPut` leaves alone, the pending run leaves alone. -/
theorem tqAcDrain_frame {α : Type} (f : TqAcEnc → α) (hp : ∀ e b, f (tqAcPut e b) = f e)
    (h0 : ∀ e : TqAcEnc, f { e with pending := 0 } = f e) (carry : UInt8) :
    ∀ (n : Nat) (e : TqAcEnc), f (tqAcDrain carry n e) = f e
  | 0, e => h0 e
  | n + 1, e => by rw [tqAcDrain, tqAcDrain_frame f hp h0 carry n, hp]

@[simp] theorem tqAcShiftLow_range (e : TqAcEnc) : (tqAcShiftLow e).range = e.range := by
  have hd := tqAcDrain_frame TqAcEnc.range tqAcPut_range (fun _ => rfl)
  unfold tqAcShiftLow
  split
  · simp only [tqAcSettle, hd]
    split <;> simp
  · rfl

@[simp] theorem tqAcShiftLow_finished (e : TqAcEnc) :
    (tqAcShiftLow e).finished = e.finished := by
  have hd := tqAcDrain_frame TqAcEnc.finished tqAcPut_finished (fun _ => rfl)
  unfold tqAcShiftLow
  split
  · simp only [tqAcSettle, hd]
    split <;> simp
  · rfl

@[simp] theorem tqAcShiftLow_low (e : TqAcEnc) :
    (tqAcShiftLow e).low.toNat = e.low.toNat % 2 ^ 24 * 256 := low_shift e.low

/-! ## Coding one symbol -/

/-- The encoder is between symbols and stands for `s`. -/
structure TqAcEnc.At (e : TqAcEnc) (s : Iv) : Prop where
  width : e.range.toNat = s.width
  floor : 2 ^ 24 ≤ s.width
  unfinished : e.finished = false
  rep : e.overflow = false → Rep e s

theorem at_init (cap : Nat) : (tqAcEncInit cap).At ⟨0, 2 ^ 32 - 1, 4⟩ where
  width := by simp [tqAcEncInit]
  floor := by simp
  unfinished := rfl
  rep _ := rep_init cap

/-- The renormalising loop ends, and grows the interval as often as it shifts. -/
theorem tqAcEncRenorm_at :
    ∀ (n : Nat) {e : TqAcEnc} {s : Iv}, e.range.toNat = s.width → 0 < s.width →
      2 ^ 24 ≤ s.width * 256 ^ n → e.finished = false → (e.overflow = false → Rep e s) →
      ∃ e', whileFuel (fun e => decide (e.range < tqAcTop))
          (fun e => { tqAcShiftLow e with range := e.range <<< 8 }) n e = some e' ∧
        e'.At (s.renorm 256 (2 ^ 24) n) ∧ (e'.overflow = false → e.overflow = false) := by
  intro n
  induction n with
  | zero =>
      intro e s hr _ hn hf hrep
      have hge : ¬ e.range < tqAcTop := by
        rw [UInt32.lt_iff_toNat_lt, hr]
        simpa [tqAcTop] using hn
      refine ⟨e, whileFuel_done (by simpa using hge) 0, ⟨hr, ?_, hf, hrep⟩, id⟩
      show 2 ^ 24 ≤ s.width
      simpa using hn
  | succ n ih =>
      intro e s hr hpos hn hf hrep
      by_cases hlt : e.range < tqAcTop
      · have hw : s.width < 2 ^ 24 := by
          rw [← hr]
          exact UInt32.lt_iff_toNat_lt.mp hlt
        have hrep' : (tqAcShiftLow e).overflow = false →
            Rep { tqAcShiftLow e with range := e.range <<< 8 } (s.grow 256) := fun ho => by
          have h := rep_shiftLow (hrep (overflow_of_shiftLow ho)) hpos hw ho
          exact h.advance 0 rfl (Nat.add_zero _).symm (Nat.add_zero _).symm rfl (Nat.zero_add _).le
        rw [whileFuel_step (by simpa using hlt), Iv.renorm, if_pos hw]
        obtain ⟨e', he', hat, hmono⟩ := ih
          (e := { tqAcShiftLow e with range := e.range <<< 8 }) (s := s.grow 256)
          (by simp only [range_shift hlt, hr, Iv.grow]) (by show 0 < s.width * 256; omega)
          (by simpa [Iv.grow, pow_succ, Nat.mul_assoc, Nat.mul_comm 256] using hn)
          (by simpa using hf) hrep'
        exact ⟨e', he', hat, fun ho => overflow_of_shiftLow (hmono ho)⟩
      · have hw : ¬ s.width < 2 ^ 24 := by
          rw [← hr]
          exact fun h => hlt (UInt32.lt_iff_toNat_lt.mpr h)
        rw [Iv.renorm, if_neg hw]
        exact ⟨e, whileFuel_done (by simpa using hlt) _, ⟨hr, by omega, hf, hrep⟩, id⟩

/-- **One symbol** narrows the represented interval to its slot. -/
theorem tqAcEncSym_at {e : TqAcEnc} {s : Iv} (h : e.At s) (t : Slot) (htot : t.tot ≤ 2 ^ 16)
    {cum freq tot : UInt32} (hc : cum.toNat = t.cum) (hf : freq.toNat = t.freq)
    (ht : tot.toNat = t.tot) :
    ∃ e', tqAcEncSym e cum freq tot = some e' ∧ e'.At (s.code 256 (2 ^ 24) 3 t) ∧
      (e'.overflow = false → e.overflow = false) := by
  have hwlt : s.width < 2 ^ 32 := h.width ▸ UInt32.toNat_lt e.range
  have hwide : t.tot ≤ s.width := Nat.le_trans htot (Nat.le_trans (by decide) h.floor)
  have hpart := Iv.narrow_end_le s t
  have hfreq := Iv.freq_le_narrow_width hwide
  have hfpos := t.freq_pos
  have hr : (e.range / tot).toNat = s.width / t.tot := by
    rw [UInt32.toNat_div, h.width, ht]
  have hzero : tot ≠ 0 := fun hz => by
    have := t.tot_pos
    rw [hz] at ht
    exact absurd ht.symm (Nat.ne_of_gt this)
  unfold tqAcEncSym
  rw [if_neg hzero]
  refine tqAcEncRenorm_at 3 (s := s.narrow t) ?_ (by omega) (by omega) h.unfinished ?_
  · show (e.range / tot * freq).toNat = s.width / t.tot * t.freq
    rw [UInt32.toNat_mul, hr, hf]
    exact Nat.mod_eq_of_lt (by omega)
  · intro ho
    have hrep := h.rep ho
    have hspan := hrep.span
    refine hrep.advance (s.width / t.tot * t.cum) rfl ?_ rfl rfl hpart
    show (e.low + (e.range / tot).toUInt64 * cum.toUInt64).toNat = _
    rw [UInt64.toNat_add, UInt64.toNat_mul, UInt32.toNat_toUInt64, UInt32.toNat_toUInt64, hr, hc,
      Nat.mod_eq_of_lt (a := s.width / t.tot * t.cum) (by omega)]
    exact Nat.mod_eq_of_lt (by omega)

/-! ## The flush -/

/-- Rounding up to a multiple of `2 ^ 24`, as the first round of the flush does. -/
theorem round_mask (x : UInt64) :
    (x &&& ~~~(0xFFFFFF : UInt64)).toNat = x.toNat / 2 ^ 24 * 2 ^ 24 := by
  have hx := UInt64.toNat_lt x
  have hmask : (~~~(0xFFFFFF : UInt64)).toNat = (2 ^ 40 - 1) * 2 ^ 24 := by decide
  rw [UInt64.toNat_and, hmask]
  apply Nat.eq_of_testBit_eq
  intro i
  rw [Nat.testBit_and, Nat.testBit_mul_two_pow, Nat.testBit_mul_two_pow,
    Nat.testBit_two_pow_sub_one, Nat.testBit_div_two_pow]
  by_cases hi : 24 ≤ i
  · have hsub : i - 24 + 24 = i := by omega
    by_cases h64 : i < 64
    · simp [hi, hsub, show i - 24 < 40 by omega]
    · have hbit : x.toNat.testBit i = false :=
        Nat.testBit_lt_two_pow (Nat.lt_of_lt_of_le hx (Nat.pow_le_pow_right (by decide) (by omega)))
      simp [hi, hsub, hbit]
  · simp [hi]

/-- The range is at least `2 ^ 24`, so the first rounding already fits. -/
theorem tqAcRound_eq {e : TqAcEnc} (hlow : e.low.toNat ≤ 2 ^ 33) (hr : 2 ^ 24 ≤ e.range.toNat) :
    (tqAcRound e [1, 2, 3, 4]).toNat = (e.low.toNat + (2 ^ 24 - 1)) / 2 ^ 24 * 2 ^ 24 := by
  have hrlt := UInt32.toNat_lt e.range
  have hmask : ((0xFFFFFFFF : UInt32) >>> UInt32.ofNat (8 * 1)).toUInt64 = 0xFFFFFF := by decide
  have hsum : (e.low + 0xFFFFFF).toNat = e.low.toNat + (2 ^ 24 - 1) := by
    rw [UInt64.toNat_add]
    exact Nat.mod_eq_of_lt (by show e.low.toNat + 16777215 < _; omega)
  have hv := round_mask (e.low + 0xFFFFFF)
  rw [hsum] at hv
  have htop : (e.low + e.range.toUInt64).toNat = e.low.toNat + e.range.toNat := by
    rw [UInt64.toNat_add, UInt32.toNat_toUInt64]
    exact Nat.mod_eq_of_lt (by omega)
  have hlt : (e.low + 0xFFFFFF) &&& ~~~(0xFFFFFF : UInt64) < e.low + e.range.toUInt64 := by
    rw [UInt64.lt_iff_toNat_lt, hv, htop]
    omega
  simp only [tqAcRound, show (1 : Nat) ≠ 4 from by decide, if_false, hmask, if_pos hlt]
  exact hv

/-- Shifting out the digits of a point. -/
theorem rep_shiftLow_iterate {lo k : Nat} :
    ∀ (n : Nat) {e : TqAcEnc}, Rep e ⟨lo, 1, k⟩ → (tqAcShiftLow^[n] e).overflow = false →
      Rep (tqAcShiftLow^[n] e) ⟨lo * 256 ^ n, 1, k + n⟩ := by
  intro n
  induction n with
  | zero => intro e h _; simpa using h
  | succ n ih =>
      intro e h ho
      rw [Function.iterate_succ_apply'] at ho ⊢
      have h' := rep_shiftLow (ih h (overflow_of_shiftLow ho)) Nat.one_pos
        (Nat.one_lt_two_pow (by decide)) ho
      rw [pow_succ, ← Nat.mul_assoc]
      exact h'.shrink (by show 1 ≤ 1 * 256; omega)

/-- Once `low` is zero a shift settles everything and leaves a zero in the cache. -/
theorem tqAcShiftLow_of_low_zero {e : TqAcEnc} (hlow : e.low.toNat = 0)
    (ho : (tqAcShiftLow e).overflow = false) :
    (tqAcShiftLow e).primed = true ∧ (tqAcShiftLow e).pending = 0 ∧
      (tqAcShiftLow e).cache = 0 := by
  have hc : (e.low >>> 32).toUInt32 ≠ 0 ∨ e.low.toUInt32 < 0xFF000000 :=
    .inr ((low_lt_ff e.low).mpr (by rw [hlow]; decide))
  unfold tqAcShiftLow at ho ⊢
  simp only [if_pos hc] at ho ⊢
  obtain ⟨hset, -⟩ := tqAcSettle_ok ho
  rw [hset]
  refine ⟨rfl, rfl, ?_⟩
  show (e.low >>> 24).toUInt8 = 0
  rw [← UInt8.toNat_inj, low_cache, hlow]
  rfl

/-- The buffer of a flushed encoder spells the point it stands for. -/
theorem prefixVal_of_flushed {f : TqAcEnc} {x k : Nat} (h : Rep f ⟨x, 1, k⟩)
    (hp : f.primed = true) (hn : f.pending = 0) (hc : f.cache = 0) (hlow : f.low.toNat = 0) :
    prefixVal 256 (digitsOf f.buf) k = x := by
  have hz : digitsOf [(0 : UInt8)] = [0] := rfl
  have hhead : f.head = val 256 (digitsOf f.buf) * 256 := by
    rw [TqAcEnc.head, TqAcEnc.committed, if_pos hp, digitsOf_append, hc, hz, val_concat,
      Nat.add_zero]
  have hlen : (digitsOf f.buf).length = f.buf.length := List.length_map _
  have hk : k = (digitsOf f.buf).length + 5 := by
    have hd := h.digits
    simp only [hp, hn, Bool.toNat_true] at hd
    omega
  have hx : x = val 256 (digitsOf f.buf) * 256 * 2 ^ 32 := by
    have hlo := h.lo
    rw [hn, hhead, hlow, pow_zero] at hlo
    dsimp only at hlo
    omega
  rw [hk, prefixVal_add (Nat.le_refl _), hx, val]
  ring

/-- Such a buffer lies in every interval the point was taken from, also after
its trailing zeros are dropped. -/
theorem contains_of_flushed {f : TqAcEnc} {s : Iv} {d : Nat} (hd : d < s.width)
    (h : Rep f ⟨(s.lo + d) * 256 ^ 5, 1, s.digits + 5⟩) (hp : f.primed = true)
    (hn : f.pending = 0) (hc : f.cache = 0) (hlow : f.low.toNat = 0) :
    s.Contains 256 (digitsOf (f.buf.rdropWhile (· == 0))) := by
  have hpoint : Iv.Contains 256 ⟨s.lo + d, 1, s.digits⟩
      (digitsOf (f.buf.rdropWhile (· == 0))) := by
    refine Iv.contains_of_point (digitsOf_lt _) _ _ 5 ?_
    unfold Iv.Contains
    rw [digitsOf_rdropWhile, prefixVal_rdropWhile_zero, prefixVal_of_flushed h hp hn hc hlow]
    exact ⟨Nat.le_refl _, Nat.lt_succ_self _⟩
  exact ⟨Nat.le_trans (Nat.le_add_right _ _) hpoint.1,
    Nat.lt_of_lt_of_le hpoint.2 (Nat.add_le_add_left hd s.lo)⟩

/-- The first multiple of `2 ^ 24` in the interval. -/
def flushPoint (s : Iv) : Nat := (s.lo + (2 ^ 24 - 1)) / 2 ^ 24 * 2 ^ 24

/-- Rounding up moves `low` to a point of the interval that ends in three zero bytes. -/
theorem rep_pick {e : TqAcEnc} {s : Iv} (h : Rep e s) (hfloor : 2 ^ 24 ≤ s.width) {v : UInt64}
    (hv : v.toNat = (e.low.toNat + (2 ^ 24 - 1)) / 2 ^ 24 * 2 ^ 24) :
    ∃ d, d < s.width ∧ s.lo + d = flushPoint s ∧
      Rep (tqAcEncPick e v) ⟨s.lo + d, 1, s.digits⟩ := by
  refine ⟨v.toNat - e.low.toNat, by omega, ?_, ?_⟩
  · -- `s.lo` and `low` differ by a multiple of `2 ^ 32`
    have hlo := h.lo
    unfold flushPoint
    generalize (e.head + 1) * 256 ^ e.pending = x at hlo
    omega
  · refine h.advance (v.toNat - e.low.toNat) rfl ?_ rfl rfl ?_
    · show v.toNat = _
      omega
    · show _ + 1 ≤ s.width
      omega

theorem overflow_of_iterate {e : TqAcEnc} :
    ∀ n, (tqAcShiftLow^[n] e).overflow = false → e.overflow = false := by
  intro n
  induction n with
  | zero => exact id
  | succ n ih =>
      rw [Function.iterate_succ_apply']
      exact fun h => ih (overflow_of_shiftLow h)

/-- A point that ends in three zero bytes leaves `low` empty after one shift. -/
theorem low_iterate {e : TqAcEnc} (h : e.low.toNat % 2 ^ 24 = 0) :
    ∀ n, (tqAcShiftLow^[n + 1] e).low.toNat = 0 := by
  intro n
  induction n with
  | zero => rw [Function.iterate_succ_apply', Function.iterate_zero_apply, tqAcShiftLow_low, h,
      Nat.zero_mul]
  | succ n ih => rw [Function.iterate_succ_apply', tqAcShiftLow_low, ih, Nat.zero_mod, Nat.zero_mul]

/-- The flush before the trailing zeros go. -/
def tqAcEncFlush (e : TqAcEnc) : TqAcEnc :=
  tqAcShiftLow^[5] (tqAcEncPick e (tqAcRound e [1, 2, 3, 4]))

theorem tqAcEncFinish_eq {e : TqAcEnc} (h : e.finished = false) :
    tqAcEncFinish e = tqAcEncStrip (tqAcEncFlush e) := by
  rw [tqAcEncFinish, if_neg (by rw [h]; exact Bool.false_ne_true), tqAcEncFlush]

/-- What is stripped stands for a point of the interval. -/
theorem tqAcEncFlush_at {e : TqAcEnc} {s : Iv} (h : e.At s)
    (ho : (tqAcEncFlush e).overflow = false) :
    ∃ d, d < s.width ∧ s.lo + d = flushPoint s ∧
      Rep (tqAcEncFlush e) ⟨(s.lo + d) * 256 ^ 5, 1, s.digits + 5⟩ ∧
      ((tqAcEncFlush e).primed = true ∧ (tqAcEncFlush e).pending = 0 ∧
        (tqAcEncFlush e).cache = 0) ∧
      (tqAcEncFlush e).low.toNat = 0 ∧ e.overflow = false := by
  unfold tqAcEncFlush at ho ⊢
  generalize hv : tqAcRound e [1, 2, 3, 4] = v at ho ⊢
  have ho₁ := overflow_of_iterate 5 ho
  rw [tqAcEncPick_overflow] at ho₁
  have hrep := h.rep ho₁
  have hspan := hrep.span
  have hround := tqAcRound_eq (e := e) (by omega) (by rw [h.width]; exact h.floor)
  rw [hv] at hround
  obtain ⟨d, hd, hflush, hpoint⟩ := rep_pick hrep h.floor hround
  have hdvd : (tqAcEncPick e v).low.toNat % 2 ^ 24 = 0 := by
    rw [tqAcEncPick_low]
    omega
  have hfin := rep_shiftLow_iterate 5 hpoint ho
  have hlast : tqAcShiftLow^[5] (tqAcEncPick e v)
      = tqAcShiftLow (tqAcShiftLow^[4] (tqAcEncPick e v)) := Function.iterate_succ_apply' _ 4 _
  rw [hlast] at ho
  have hset := tqAcShiftLow_of_low_zero (low_iterate hdvd 3) ho
  rw [← hlast] at hset
  exact ⟨d, hd, hflush, hfin, hset, low_iterate hdvd 4, ho₁⟩

/-- **The flush** leaves a message that lies in the final interval. -/
theorem tqAcEncFinish_contains {e : TqAcEnc} {s : Iv} (h : e.At s)
    (ho : (tqAcEncFinish e).overflow = false) :
    s.Contains 256 (digitsOf (tqAcEncFinish e).buf) ∧ e.overflow = false := by
  rw [tqAcEncFinish_eq h.unfinished] at ho ⊢
  rw [tqAcEncStrip_overflow] at ho
  obtain ⟨d, hd, -, hrep, ⟨hp, hn, hc⟩, hlow, ho₁⟩ := tqAcEncFlush_at h ho
  exact ⟨contains_of_flushed hd hrep hp hn hc hlow, ho₁⟩

end TinyLlm
