/-
# `TinyLlm.Lib.Interval` — interval coding over a digit stream

The mathematics of a range coder with nothing of a machine in it.  A message
is a list of base-`b` digits that continues with zeros for ever, an interval
`[lo, lo + width)` is measured in units of `b ^ -digits`, and coding a symbol
narrows the interval to the slot `[cum, cum + freq)` of `tot` equal parts.

| | |
| :-- | :-- |
| `prefixVal b M k` | the first `k` digits of `M`, read as a number |
| `Iv.narrow` | one symbol, `width / tot` truncated |
| `Iv.grow` | the same interval in units `b` times finer |
| `Iv.Contains s M` | the value of the stream `M` lies in `s` |

An interval is nested in the one it was narrowed from, so a stream that lies
in the last interval lies in all of them (`contains_of_code`), and there the
offset of the stream inside the interval names the slot (`target_bounds`).
-/
import Mathlib.Data.List.DropRight
import Mathlib.Algebra.Order.Ring.Nat
import Mathlib.Tactic.Ring

namespace IntervalCoding

/-! ## Digit streams -/

/-- The first `k` digits of the stream `M`, zeros past its end, as a number. -/
def prefixVal (b : Nat) (M : List Nat) : Nat → Nat
  | 0 => 0
  | k + 1 => prefixVal b M k * b + M.getD k 0

variable {b : Nat} {M N : List Nat}

theorem prefixVal_congr (h : ∀ i, M.getD i 0 = N.getD i 0) :
    ∀ k, prefixVal b M k = prefixVal b N k
  | 0 => rfl
  | k + 1 => by simp only [prefixVal, prefixVal_congr h k, h k]

theorem prefixVal_append_left : ∀ {k : Nat}, k ≤ M.length →
    prefixVal b (M ++ N) k = prefixVal b M k
  | 0, _ => rfl
  | k + 1, h => by
      have hk : k < M.length := h
      have hget : (M ++ N).getD k 0 = M.getD k 0 := by
        simp [List.getElem?_append_left hk]
      simp only [prefixVal, prefixVal_append_left (Nat.le_of_lt hk), hget]

/-- Appending one digit. -/
theorem prefixVal_concat (d : Nat) :
    prefixVal b (M ++ [d]) (M.length + 1) = prefixVal b M M.length * b + d := by
  have hget : (M ++ [d]).getD M.length 0 = d := by simp
  simp only [prefixVal, prefixVal_append_left le_rfl, hget]

/-- All the digits of `M`. -/
def val (b : Nat) (M : List Nat) : Nat := prefixVal b M M.length

@[simp] theorem val_nil : val b [] = 0 := rfl

@[simp] theorem val_concat (d : Nat) : val b (M ++ [d]) = val b M * b + d := by
  rw [val, List.length_append, List.length_singleton, prefixVal_concat, val]

/-- A run of zeros shifts. -/
theorem val_append_zeros (M : List Nat) :
    ∀ n, val b (M ++ List.replicate n 0) = val b M * b ^ n
  | 0 => by simp
  | n + 1 => by
      rw [List.replicate_succ', ← List.append_assoc, val_concat, val_append_zeros M n, pow_succ]
      ring

/-- A run of top digits is one short of the next value. -/
theorem val_append_tops (hb : 0 < b) (M : List Nat) :
    ∀ n, val b (M ++ List.replicate n (b - 1)) + 1 = (val b M + 1) * b ^ n
  | 0 => by simp
  | n + 1 => by
      have ih := val_append_tops hb M n
      rw [List.replicate_succ', ← List.append_assoc, val_concat, pow_succ]
      calc val b (M ++ List.replicate n (b - 1)) * b + (b - 1) + 1
          = (val b (M ++ List.replicate n (b - 1)) + 1) * b := by rw [Nat.add_mul]; omega
        _ = (val b M + 1) * (b ^ n * b) := by rw [ih, Nat.mul_assoc]

/-- Past the end of the message every further digit is a zero. -/
theorem prefixVal_add {k : Nat} (h : M.length ≤ k) :
    ∀ j, prefixVal b M (k + j) = prefixVal b M k * b ^ j
  | 0 => by simp
  | j + 1 => by
      have hget : M.getD (k + j) 0 = 0 := by
        rw [List.getD_eq_getElem?_getD, List.getElem?_eq_none (by omega)]
        rfl
      rw [← Nat.add_assoc, prefixVal, prefixVal_add h j, hget, pow_succ]
      ring

/-- Trailing zeros are not read back as anything else. -/
theorem getD_rdropWhile_zero (M : List Nat) (i : Nat) :
    (M.rdropWhile (· == 0)).getD i 0 = M.getD i 0 := by
  induction M using List.reverseRecOn with
  | nil => rfl
  | append_singleton M d ih =>
      rw [List.rdropWhile_concat]
      split
      · next hd =>
          have hd : d = 0 := by simpa using hd
          subst hd
          rw [ih]
          rcases Nat.lt_or_ge i M.length with hi | hi
          · simp [List.getElem?_append_left hi]
          · rw [List.getD_eq_getElem?_getD, List.getElem?_eq_none hi,
              List.getD_eq_getElem?_getD, List.getElem?_append_right hi]
            cases i - M.length <;> simp
      · rfl

theorem prefixVal_rdropWhile_zero (M : List Nat) (k : Nat) :
    prefixVal b (M.rdropWhile (· == 0)) k = prefixVal b M k :=
  prefixVal_congr (getD_rdropWhile_zero M) k

/-- What a finite string is worth when it is read to `k` digits. -/
theorem prefixVal_of_le {k : Nat} (h : M.length ≤ k) :
    prefixVal b M k = val b M * b ^ (k - M.length) := by
  have hk : k = M.length + (k - M.length) := by omega
  rw [hk, prefixVal_add le_rfl, Nat.add_sub_cancel_left]
  rfl

/-- **Trailing zeros.**  They count how often the base divides the value. -/
theorem length_rdropWhile_le_iff (hb : 0 < b) : ∀ (M : List Nat), (∀ d ∈ M, d < b) →
    ∀ n ≤ M.length, ((M.rdropWhile (· == 0)).length ≤ n ↔ b ^ (M.length - n) ∣ val b M) := by
  intro M
  induction M using List.reverseRecOn with
  | nil =>
      intro _ n hn
      simp
  | append_singleton M d ih =>
      intro hM n hn
      have hd : d < b := hM d (by simp)
      rw [List.length_append, List.length_singleton] at hn ⊢
      rw [List.rdropWhile_concat, val_concat]
      rcases Nat.lt_or_ge M.length n with hlt | hle
      · -- nothing has to be dropped
        have hz : M.length + 1 - n = 0 := by omega
        rw [hz, pow_zero]
        refine ⟨fun _ => one_dvd _, fun _ => ?_⟩
        split
        · exact ((M.rdropWhile_prefix _).length_le).trans (Nat.le_of_lt hlt)
        · rw [List.length_append, List.length_singleton]
          omega
      · have hpow : b ^ (M.length + 1 - n) = b ^ (M.length - n) * b := by
          rw [← pow_succ]
          congr 1
          omega
        split
        · next hzero =>
            have hzero : d = 0 := by simpa using hzero
            rw [hzero, Nat.add_zero, hpow]
            refine Iff.trans ?_ (Nat.mul_dvd_mul_iff_right hb).symm
            exact ih (fun x hx => hM x (by simp [hx])) n hle
        · next hne =>
            have hne : d ≠ 0 := by simpa using hne
            constructor
            · intro hlen
              rw [List.length_append, List.length_singleton] at hlen
              omega
            · intro hdvd
              have hb' : b ∣ val b M * b + d :=
                Dvd.dvd.trans ⟨b ^ (M.length - n), by rw [hpow, Nat.mul_comm]⟩ hdvd
              have hbd : b ∣ d := (Nat.dvd_add_right ⟨val b M, Nat.mul_comm _ _⟩).mp hb'
              exact absurd (Nat.le_of_dvd (Nat.pos_of_ne_zero hne) hbd) (Nat.not_le_of_lt hd)

/-! ## Intervals -/

/-- The interval `[lo, lo + width)` in units of `b ^ -digits`. -/
structure Iv where
  lo : Nat
  width : Nat
  digits : Nat

/-- The slot of one symbol: `freq` of `tot` parts, starting at `cum`. -/
structure Slot where
  cum : Nat
  freq : Nat
  tot : Nat
  freq_pos : 0 < freq
  fits : cum + freq ≤ tot

theorem Slot.tot_pos (t : Slot) : 0 < t.tot :=
  Nat.lt_of_lt_of_le t.freq_pos (Nat.le_trans (Nat.le_add_left _ _) t.fits)

namespace Iv

/-- Narrow to a slot; a part is `width / tot`, truncated. -/
def narrow (s : Iv) (t : Slot) : Iv :=
  { lo := s.lo + s.width / t.tot * t.cum,
    width := s.width / t.tot * t.freq,
    digits := s.digits }

/-- The same interval, one digit finer. -/
def grow (b : Nat) (s : Iv) : Iv :=
  { lo := s.lo * b, width := s.width * b, digits := s.digits + 1 }

/-- Add digits, at most `n`, until the width is at least `top`. -/
def renorm (b top : Nat) : Nat → Iv → Iv
  | 0, s => s
  | n + 1, s => if s.width < top then renorm b top n (s.grow b) else s

/-- Code one symbol. -/
def code (b top n : Nat) (s : Iv) (t : Slot) : Iv := (s.narrow t).renorm b top n

/-- The stream `M` lies in the interval. -/
def Contains (b : Nat) (s : Iv) (M : List Nat) : Prop :=
  s.lo ≤ prefixVal b M s.digits ∧ prefixVal b M s.digits < s.lo + s.width

/-- Where the stream lies inside the interval. -/
def offset (b : Nat) (s : Iv) (M : List Nat) : Nat := prefixVal b M s.digits - s.lo

variable {s : Iv} {t : Slot}

theorem offset_lt (h : s.Contains b M) : s.offset b M < s.width := by
  unfold Contains at h
  unfold offset
  omega

/-! ### An interval is nested in the one it came from -/

theorem contains_of_grow (hM : ∀ i, M.getD i 0 < b) (h : (s.grow b).Contains b M) :
    s.Contains b M := by
  obtain ⟨h₁, h₂⟩ := h
  simp only [grow, prefixVal] at h₁ h₂
  have hd := hM s.digits
  have hlo : s.lo * b < (prefixVal b M s.digits + 1) * b := by
    rw [Nat.add_mul]
    omega
  have hhi : prefixVal b M s.digits * b < (s.lo + s.width) * b := by
    rw [Nat.add_mul]
    omega
  exact ⟨Nat.lt_succ_iff.mp (Nat.lt_of_mul_lt_mul_right hlo),
    Nat.lt_of_mul_lt_mul_right hhi⟩

theorem contains_of_renorm (hM : ∀ i, M.getD i 0 < b) {top : Nat} :
    ∀ (n : Nat) {s : Iv}, (s.renorm b top n).Contains b M → s.Contains b M
  | 0, _, h => h
  | n + 1, s, h => by
      unfold renorm at h
      split at h
      · exact contains_of_grow hM (contains_of_renorm hM n h)
      · exact h

/-- The parts up to the end of a slot are inside the interval. -/
theorem narrow_end_le (s : Iv) (t : Slot) :
    s.width / t.tot * t.cum + s.width / t.tot * t.freq ≤ s.width := by
  calc s.width / t.tot * t.cum + s.width / t.tot * t.freq
      = s.width / t.tot * (t.cum + t.freq) := by rw [Nat.mul_add]
    _ ≤ s.width / t.tot * t.tot := Nat.mul_le_mul_left _ t.fits
    _ ≤ s.width := Nat.div_mul_le_self _ _

theorem contains_of_narrow (h : (s.narrow t).Contains b M) : s.Contains b M := by
  have hend := narrow_end_le s t
  obtain ⟨h₁, h₂⟩ := h
  simp only [narrow] at h₁ h₂
  exact ⟨by omega, by omega⟩

/-- **Nesting.**  A stream in the interval after a symbol was in it before. -/
theorem contains_of_code (hM : ∀ i, M.getD i 0 < b) {top n : Nat}
    (h : (s.code b top n t).Contains b M) : (s.narrow t).Contains b M :=
  contains_of_renorm hM n h

theorem Contains.widen {lo w k w' : Nat} (h : Contains b ⟨lo, w, k⟩ M) (hw : w ≤ w') :
    Contains b ⟨lo, w', k⟩ M :=
  ⟨h.1, Nat.lt_of_lt_of_le h.2 (Nat.add_le_add_left hw lo)⟩

/-- A stream that starts with the digits of `lo` and then `n` zeros. -/
theorem contains_of_point (hM : ∀ i, M.getD i 0 < b) (lo k : Nat) :
    ∀ n, Contains b ⟨lo * b ^ n, 1, k + n⟩ M → Contains b ⟨lo, 1, k⟩ M := by
  intro n
  induction n with
  | zero => simp
  | succ n ih =>
      intro h
      have hb : 0 < b := Nat.lt_of_le_of_lt (Nat.zero_le _) (hM 0)
      refine ih (contains_of_grow (s := ⟨lo * b ^ n, 1, k + n⟩) hM ?_)
      simp only [grow, Nat.mul_assoc, ← pow_succ]
      exact h.widen (by omega)

/-! ### What a decoder computes -/

theorem offset_grow (h : s.Contains b M) :
    (s.grow b).offset b M = s.offset b M * b + M.getD s.digits 0 := by
  have hlo : s.lo * b ≤ prefixVal b M s.digits * b := Nat.mul_le_mul_right b h.1
  simp only [offset, grow, prefixVal, Nat.sub_mul]
  omega

theorem offset_narrow :
    (s.narrow t).offset b M = s.offset b M - t.cum * (s.width / t.tot) := by
  simp only [offset, narrow, Nat.mul_comm t.cum]
  omega

/-- The offset starts at or after the slot. -/
theorem cum_mul_le_offset (h : (s.narrow t).Contains b M) :
    t.cum * (s.width / t.tot) ≤ s.offset b M := by
  have h₁ := h.1
  simp only [narrow] at h₁
  rw [Nat.mul_comm]
  unfold offset
  omega

/-- **Decoding.**  Dividing the offset by the size of a part lands in the slot. -/
theorem target_bounds (h : (s.narrow t).Contains b M) :
    t.cum ≤ s.offset b M / (s.width / t.tot) ∧
      s.offset b M / (s.width / t.tot) < t.cum + t.freq := by
  have hpart : 0 < s.width / t.tot := by
    rcases Nat.eq_zero_or_pos (s.width / t.tot) with hz | hp
    · have h₁ := h.1
      have h₂ := h.2
      simp only [narrow, hz, Nat.zero_mul] at h₁ h₂
      omega
    · exact hp
  have hlt : s.offset b M < (t.cum + t.freq) * (s.width / t.tot) := by
    have h₁ := h.1
    have h₂ := h.2
    simp only [narrow] at h₁ h₂
    rw [Nat.add_mul, Nat.mul_comm t.cum, Nat.mul_comm t.freq]
    unfold offset
    omega
  exact ⟨(Nat.le_div_iff_mul_le hpart).mpr (cum_mul_le_offset h),
    (Nat.div_lt_iff_lt_mul hpart).mpr hlt⟩

/-! ### Widths -/

/-- `n` digits are enough to bring a positive width to `top`. -/
theorem top_le_renorm_width {top : Nat} :
    ∀ (n : Nat) {s : Iv}, top ≤ s.width * b ^ n → top ≤ (s.renorm b top n).width
  | 0, s, h => by simpa [renorm] using h
  | n + 1, s, h => by
      unfold renorm
      split
      · apply top_le_renorm_width n
        simpa [grow, pow_succ, Nat.mul_assoc, Nat.mul_comm b] using h
      · omega

theorem freq_le_narrow_width (h : t.tot ≤ s.width) : t.freq ≤ (s.narrow t).width := by
  have hpart : 0 < s.width / t.tot := Nat.div_pos h t.tot_pos
  exact Nat.le_mul_of_pos_left _ hpart

/-- Growing changes the unit, not the share of the whole. -/
theorem renorm_scale (hb : 0 < b) {top : Nat} : ∀ (n : Nat) (s : Iv),
    s.width * b ^ (s.renorm b top n).digits = (s.renorm b top n).width * b ^ s.digits
  | 0, _ => rfl
  | n + 1, s => by
      unfold renorm
      split
      · have ih : s.width * b * b ^ ((s.grow b).renorm b top n).digits
            = ((s.grow b).renorm b top n).width * b ^ (s.digits + 1) :=
          renorm_scale hb n (s.grow b)
        apply Nat.eq_of_mul_eq_mul_right hb
        calc s.width * b ^ ((s.grow b).renorm b top n).digits * b
            = s.width * b * b ^ ((s.grow b).renorm b top n).digits := by ring
          _ = ((s.grow b).renorm b top n).width * b ^ (s.digits + 1) := ih
          _ = ((s.grow b).renorm b top n).width * b ^ s.digits * b := by rw [pow_succ]; ring
      · rfl

theorem digits_le_renorm {top : Nat} : ∀ (n : Nat) (s : Iv), s.digits ≤ (s.renorm b top n).digits
  | 0, _ => Nat.le_refl _
  | n + 1, s => by
      unfold renorm
      split
      · exact Nat.le_trans (Nat.le_succ _) (digits_le_renorm n (s.grow b))
      · exact Nat.le_refl _

theorem renorm_digits_le {top : Nat} : ∀ (n : Nat) (s : Iv),
    (s.renorm b top n).digits ≤ s.digits + n
  | 0, _ => Nat.le_refl _
  | n + 1, s => by
      unfold renorm
      split
      · have hgrow : (s.grow b).digits = s.digits + 1 := rfl
        have ih : ((s.grow b).renorm b top n).digits ≤ (s.grow b).digits + n := renorm_digits_le n _
        exact ih.trans (by omega)
      · exact Nat.le_add_right _ _

/-- No more digits are added than the width needs. -/
theorem renorm_digits_le_of {top : Nat} : ∀ (n : Nat) {k : Nat} {s : Iv}, top ≤ s.width * b ^ k →
    (s.renorm b top n).digits ≤ s.digits + k
  | 0, _, _, _ => Nat.le_add_right _ _
  | n + 1, 0, s, h => by
      unfold renorm
      rw [pow_zero, Nat.mul_one] at h
      rw [if_neg (Nat.not_lt_of_le h)]
      exact Nat.le_refl _
  | n + 1, k + 1, s, h => by
      unfold renorm
      split
      · have hgrow : top ≤ (s.grow b).width * b ^ k := by
          show top ≤ s.width * b * b ^ k
          rwa [Nat.mul_assoc, ← Nat.pow_succ']
        have ih := renorm_digits_le_of n hgrow
        have hdigits : (s.grow b).digits = s.digits + 1 := rfl
        omega
      · exact Nat.le_add_right _ _

/-- The interval does not pass the end of the unit interval. -/
def Within (b : Nat) (s : Iv) : Prop := s.lo + s.width ≤ b ^ s.digits

theorem Within.grow (h : s.Within b) : (s.grow b).Within b := by
  show s.lo * b + s.width * b ≤ b ^ (s.digits + 1)
  rw [← Nat.add_mul, pow_succ]
  exact Nat.mul_le_mul_right b h

theorem Within.renorm {top : Nat} : ∀ (n : Nat) {s : Iv}, s.Within b → (s.renorm b top n).Within b
  | 0, _, h => h
  | n + 1, s, h => by
      unfold Iv.renorm
      split
      · exact Within.renorm n h.grow
      · exact h

theorem Within.code {top n : Nat} (h : s.Within b) : (s.code b top n t).Within b := by
  refine Within.renorm n ?_
  have hend := narrow_end_le s t
  unfold Within at h ⊢
  simp only [Iv.narrow]
  omega

/-- Truncating the size of a part costs less than one part in `c`, if there
are `c` units to a part. -/
theorem part_scale {w tot c : Nat} (htot : 0 < tot) (h : c * tot ≤ w) :
    (c - 1) * w ≤ w / tot * tot * c := by
  have hmod := Nat.mod_lt w htot
  have hdiv := Nat.div_add_mod' w tot
  have hlost : w % tot * c ≤ w := by
    calc w % tot * c ≤ tot * c := Nat.mul_le_mul_right c hmod.le
      _ = c * tot := Nat.mul_comm tot c
      _ ≤ w := h
  have hall : w / tot * tot * c + w % tot * c = w * c := by
    rw [← Nat.add_mul, hdiv]
  rw [Nat.sub_mul, Nat.one_mul, Nat.mul_comm c w]
  omega

end Iv

end IntervalCoding
