/-
# `TinyLlm.Ac.Order` — the tables respect the order of the weights

The fixed-point `2 ^ x` is monotone over all of its inputs: within an octave
every truncating Horner step is, and at the boundary the polynomial stays below
twice its leading coefficient.  It is strictly below one for a negative `x`, so
the only symbols of full weight are those at the maximum.

Proportional shares grow with the weight, and the leftover goes to the heaviest
entry: a heavier entry never gets less.  Among symbols of equal weight the
leftover goes to the first, but those have different deltas only below the
maximum, where no leftover goes.
-/
import TinyLlm.Ac.Token

namespace TinyLlm

open Finset

/-! ## `tq_ac_exp2_q24` -/

/-- The accumulator after the coefficients `ks`. -/
def exp2Horner (f : Nat) (ks : List Nat) (acc : Nat) : Nat :=
  ks.foldl (fun acc k => acc * f / 65536 + tqExp2C.getD k 0) acc

theorem exp2Horner_mono {f f' : Nat} (hf : f ≤ f') :
    ∀ (ks : List Nat) {acc acc' : Nat}, acc ≤ acc' →
    exp2Horner f ks acc ≤ exp2Horner f' ks acc'
  | [], _, _, h => h
  | k :: ks, acc, acc', h => by
      refine exp2Horner_mono hf ks (Nat.add_le_add_right (Nat.div_le_div_right ?_) _)
      exact Nat.mul_le_mul h hf

/-- The polynomial on `[0, 1)`, in Q24. -/
def exp2Poly (f : Nat) : Nat := exp2Horner f [5, 4, 3, 2, 1, 0] (tqExp2C.getD 6 0)

theorem exp2Poly_last (f : Nat) :
    exp2Poly f = exp2Horner f [5, 4, 3, 2, 1] (tqExp2C.getD 6 0) * f / 65536 + 2 ^ 24 := by
  have hone : tqExp2C.getD 0 0 = 2 ^ 24 := by decide
  have hsplit : [5, 4, 3, 2, 1, 0] = [5, 4, 3, 2, 1] ++ [0] := rfl
  unfold exp2Poly exp2Horner
  rw [hsplit, List.foldl_append, List.foldl_cons, List.foldl_nil, hone]

theorem exp2Poly_mono {f f' : Nat} (hf : f ≤ f') : exp2Poly f ≤ exp2Poly f' :=
  exp2Horner_mono hf _ (Nat.le_refl _)

theorem le_exp2Poly (f : Nat) : 2 ^ 24 ≤ exp2Poly f := by
  rw [exp2Poly_last]
  exact Nat.le_add_left _ _

/-- The next octave begins above the last value of this one. -/
theorem exp2Poly_lt {f : Nat} (hf : f < 65536) : exp2Poly f < 2 ^ 25 := by
  have hrest := exp2_fold_le hf.le [5, 4, 3, 2, 1] (tqExp2C.getD 6 0)
  have hsum : tqExp2C.getD 6 0 + ([5, 4, 3, 2, 1].map fun k => tqExp2C.getD k 0).sum =
      2 ^ 24 := by decide
  rw [hsum] at hrest
  rw [exp2Poly_last]
  change exp2Horner f [5, 4, 3, 2, 1] (tqExp2C.getD 6 0) ≤ 2 ^ 24 at hrest
  generalize exp2Horner f [5, 4, 3, 2, 1] (tqExp2C.getD 6 0) = acc at hrest
  have hmul : acc * f ≤ 2 ^ 24 * 65535 := Nat.mul_le_mul hrest (by omega)
  omega

theorem tqAcExp2Q24_eq {x : Int} (hx : x ≤ 0) :
    (tqAcExp2Q24 x).toNat =
      if -(x / 65536) ≥ 32 then 0 else exp2Poly (x % 65536).toNat / 2 ^ (-(x / 65536)).toNat := by
  have hlt := exp2Poly_lt (f := (x % 65536).toNat) (by omega)
  unfold tqAcExp2Q24
  dsimp only
  rw [if_neg (show ¬ x > 0 by omega)]
  change (if -(x / 65536) ≥ 32 then 0 else
    UInt32.ofNat (exp2Poly (x % 65536).toNat / 2 ^ (-(x / 65536)).toNat)).toNat = _
  split
  · rfl
  · have hdiv := Nat.div_le_self (exp2Poly (x % 65536).toNat) (2 ^ (-(x / 65536)).toNat)
    exact UInt32.toNat_ofNat_of_lt' (by
      show _ < 4294967296
      omega)

theorem tqAcExp2Q24_clamp {x : Int} (hx : 0 ≤ x) : tqAcExp2Q24 x = tqAcExp2Q24 0 := by
  unfold tqAcExp2Q24
  rcases hx.lt_or_eq with hlt | rfl
  · rw [if_pos hlt]
    rfl
  · rfl

/-- **Monotone**, octave boundaries included. -/
theorem tqAcExp2Q24_mono {x y : Int} (h : x ≤ y) :
    (tqAcExp2Q24 x).toNat ≤ (tqAcExp2Q24 y).toNat := by
  have hneg : ∀ {x y : Int}, x ≤ y → y ≤ 0 → (tqAcExp2Q24 x).toNat ≤ (tqAcExp2Q24 y).toNat := by
    intro x y h hy
    rw [tqAcExp2Q24_eq (h.trans hy), tqAcExp2Q24_eq hy]
    by_cases hx : -(x / 65536) ≥ 32
    · rw [if_pos hx]
      exact Nat.zero_le _
    · rw [if_neg hx, if_neg (by omega)]
      by_cases hip : x / 65536 = y / 65536
      · rw [hip]
        exact Nat.div_le_div_right (exp2Poly_mono (by omega))
      · -- an octave or more apart
        have hlt := exp2Poly_lt (f := (x % 65536).toNat) (by omega)
        have hle := le_exp2Poly (y % 65536).toNat
        obtain ⟨d, hd⟩ : ∃ d, (-(x / 65536)).toNat = (-(y / 65536)).toNat + 1 + d :=
          ⟨(-(x / 65536)).toNat - ((-(y / 65536)).toNat + 1), by omega⟩
        calc exp2Poly (x % 65536).toNat / 2 ^ (-(x / 65536)).toNat
            ≤ 2 ^ 25 / 2 ^ (-(x / 65536)).toNat := Nat.div_le_div_right hlt.le
          _ ≤ 2 ^ 25 / 2 ^ ((-(y / 65536)).toNat + 1) := by
              refine Nat.div_le_div_left ?_ (Nat.two_pow_pos _)
              rw [hd]
              exact Nat.pow_le_pow_right Nat.two_pos (Nat.le_add_right _ _)
          _ = 2 ^ 24 / 2 ^ (-(y / 65536)).toNat := by
              have hhalf : 2 ^ 25 = 2 ^ 24 * 2 := by decide
              rw [hhalf, pow_succ 2 (-(y / 65536)).toNat, Nat.mul_div_mul_right _ _ Nat.two_pos]
          _ ≤ exp2Poly (y % 65536).toNat / 2 ^ (-(y / 65536)).toNat := Nat.div_le_div_right hle
  rcases le_total y 0 with hy | hy
  · exact hneg h hy
  · rw [tqAcExp2Q24_clamp hy]
    rcases le_total x 0 with hx | hx
    · exact hneg hx (le_refl 0)
    · rw [tqAcExp2Q24_clamp hx]

theorem tqAcExp2Q24_zero : (tqAcExp2Q24 0).toNat = 2 ^ 24 := by decide

/-- Below the maximum there is no full weight. -/
theorem tqAcExp2Q24_lt {x : Int} (hx : x < 0) : (tqAcExp2Q24 x).toNat < 2 ^ 24 := by
  rw [tqAcExp2Q24_eq hx.le]
  split
  · decide
  · have hlt := exp2Poly_lt (f := (x % 65536).toNat) (by omega)
    have hshift : 2 ≤ 2 ^ (-(x / 65536)).toNat := by
      calc 2 = 2 ^ 1 := rfl
        _ ≤ 2 ^ (-(x / 65536)).toNat := Nat.pow_le_pow_right Nat.two_pos (by omega)
    refine (Nat.div_le_div_left hshift Nat.two_pos).trans_lt ?_
    omega

/-! ## `tq_ac_normalize` -/

/-- One count and a truncated share of the rest. -/
def countShare (w : Nat → UInt64) (n i : Nat) : Nat :=
  1 + (w i).toNat * (2 ^ 16 - n) / ∑ k ∈ range n, (w k).toNat

section Normalize
variable {c : Nat → UInt32} {w : Nat → UInt64} {n : Nat}

/-- Where there is weight, a count is its share, and the heaviest has the
leftover on top. -/
theorem normalize_share (c : Nat → UInt32) (hn : n ≤ 2 ^ 16)
    (hw : ∑ i ∈ range n, (w i).toNat ≤ 2 ^ 41) (hS : 0 < ∑ i ∈ range n, (w i).toNat) {i : Nat}
    (hi : i < n) :
    countShare w n i ≤ (tqAcNormalize c w n i).toNat ∧
      (i ≠ (tqAcSumTop w n).2 → (tqAcNormalize c w n i).toNat = countShare w n i) := by
  have htop := sumTop_top_lt (w := w) (Nat.zero_lt_of_lt hi)
  have hsum := sumTop_sum (w := w) (n := n) (by omega)
  have htot := toNat_tqAcTot
  have hne : (tqAcSumTop w n).1 ≠ 0 := by
    intro hzero
    rw [hzero] at hsum
    have hz : (0 : UInt64).toNat = 0 := rfl
    omega
  have hused := sum_fill_share c hn hw hS
  have hshare : ∀ k < n, (fill c n (fun i =>
      1 + (w i * (tqAcTot - UInt32.ofNat n).toUInt64 / (tqAcSumTop w n).1).toUInt32) k).toNat =
        countShare w n k := by
    intro k hk
    rw [fill_lt hk, toNat_share hn hw hk]
    rfl
  unfold tqAcNormalize
  dsimp only
  rw [if_neg hne]
  generalize fill c n _ = c₁ at hused hshare ⊢
  have hcum := toNat_cum_of_lt (c := c₁) (n := n) (by omega)
  have hleft : (tqAcTot - tqAcCum c₁ n).toNat = 2 ^ 16 - ∑ i ∈ range n, (c₁ i).toNat := by
    rw [UInt32.toNat_sub_of_le _ _ (UInt32.le_iff_toNat_le.mpr (by rw [hcum, htot]; exact hused)),
      htot, hcum]
  obtain ⟨-, hle⟩ := raise_sum_pos (c := c₁) htop (d := tqAcTot - tqAcCum c₁ n) (by omega)
  rw [← hshare i hi]
  refine ⟨hle i, fun hnot => ?_⟩
  rw [tqAcRaise, Function.update_of_ne hnot]

theorem countShare_mono {i j : Nat} (h : (w j).toNat ≤ (w i).toNat) :
    countShare w n j ≤ countShare w n i :=
  Nat.add_le_add_left (Nat.div_le_div_right (Nat.mul_le_mul_right _ h)) 1

/-- **An entry that is at least as heavy** as one without the leftover has at
least its count. -/
theorem normalize_mono (c : Nat → UInt32) (hn : n ≤ 2 ^ 16)
    (hw : ∑ i ∈ range n, (w i).toNat ≤ 2 ^ 41) (hS : 0 < ∑ i ∈ range n, (w i).toNat) {i j : Nat}
    (hi : i < n) (hj : j < n) (hle : (w j).toNat ≤ (w i).toNat) (htop : j ≠ (tqAcSumTop w n).2) :
    tqAcNormalize c w n j ≤ tqAcNormalize c w n i := by
  obtain ⟨hfrom, -⟩ := normalize_share c hn hw hS hi
  obtain ⟨-, hto⟩ := normalize_share c hn hw hS hj
  rw [UInt32.le_iff_toNat_le, hto htop]
  exact (countShare_mono hle).trans hfrom

/-- **A heavier entry** never has the smaller count. -/
theorem normalize_strict (c : Nat → UInt32) (hn : n ≤ 2 ^ 16)
    (hw : ∑ i ∈ range n, (w i).toNat ≤ 2 ^ 41) {i j : Nat} (hi : i < n) (hj : j < n)
    (hlt : w j < w i) :
    tqAcNormalize c w n j ≤ tqAcNormalize c w n i := by
  have hlt' : (w j).toNat < (w i).toNat := UInt64.lt_iff_toNat_lt.mp hlt
  have hle : (w i).toNat ≤ ∑ k ∈ range n, (w k).toNat :=
    single_le_sum (f := fun k => (w k).toNat) (fun _ _ => Nat.zero_le _) (mem_range.mpr hi)
  refine normalize_mono c hn hw (by omega) hi hj hlt'.le ?_
  rintro rfl
  have := le_sumTop_top (w := w) hi
  omega

end Normalize

/-! ## Ranges -/

/-- `tq_ac_exp2_q24` stays in an `int64_t`, and its value in a `uint32_t`. -/
def Exp2InRange : Prop :=
  ∀ (f : Nat) (ks : List Nat), f < 65536 → ks <+: [5, 4, 3, 2, 1, 0] →
    exp2Horner f ks (tqExp2C.getD 6 0) * f < 2 ^ 63 ∧ exp2Horner f ks (tqExp2C.getD 6 0) < 2 ^ 32

/-- No step of `tq_ac_normalize` wraps: neither the sum, the products, the
counts and their sum, nor the two differences. -/
structure NormalizeInRange (w : Nat → UInt64) (n : Nat) : Prop where
  spread : n ≤ 2 ^ 16
  sum : ∑ i ∈ range n, (w i).toNat < 2 ^ 64
  product : ∀ i < n, (w i).toNat * (2 ^ 16 - n) < 2 ^ 64
  count : ∀ i < n, countShare w n i < 2 ^ 32
  used : ∑ i ∈ range n, countShare w n i ≤ 2 ^ 16

theorem exp2InRange : Exp2InRange := by
  intro f ks hf hks
  have hacc := exp2_fold_le hf.le ks (tqExp2C.getD 6 0)
  obtain ⟨rest, hrest⟩ := hks
  have hsum : tqExp2C.getD 6 0 + (ks.map fun k => tqExp2C.getD k 0).sum +
      (rest.map fun k => tqExp2C.getD k 0).sum = 2 ^ 25 := by
    rw [Nat.add_assoc, ← List.sum_append, ← List.map_append, hrest]
    decide
  change exp2Horner f ks (tqExp2C.getD 6 0) ≤ _ at hacc
  generalize exp2Horner f ks (tqExp2C.getD 6 0) = acc at hacc
  have hle : acc ≤ 2 ^ 25 := by omega
  have hmul : acc * f ≤ 2 ^ 25 * 65536 := Nat.mul_le_mul hle hf.le
  omega

theorem normalizeInRange {w : Nat → UInt64} {n : Nat} (hn : n ≤ 2 ^ 16)
    (hw : ∑ i ∈ range n, (w i).toNat ≤ 2 ^ 41) : NormalizeInRange w n := by
  have hle : ∀ i < n, (w i).toNat ≤ ∑ k ∈ range n, (w k).toNat := fun i hi =>
    single_le_sum (f := fun k => (w k).toNat) (fun _ _ => Nat.zero_le _) (mem_range.mpr hi)
  have hused : ∑ i ∈ range n, countShare w n i ≤ 2 ^ 16 := by
    unfold countShare
    rw [sum_add_distrib, sum_const, card_range, Nat.nsmul_eq_mul, Nat.mul_one]
    rcases Nat.eq_zero_or_pos (∑ k ∈ range n, (w k).toNat) with hz | hS
    · simp only [hz, Nat.div_zero, sum_const_zero]
      omega
    · have := Tiling.sum_share_le_spread (w := fun k => (w k).toNat) (2 ^ 16 - n) hS
      omega
  refine ⟨hn, by omega, fun i hi => ?_, fun i hi => ?_, hused⟩
  · have := hle i hi
    have hmul : (w i).toNat * (2 ^ 16 - n) ≤ 2 ^ 41 * 2 ^ 16 :=
      Nat.mul_le_mul (by omega) (Nat.sub_le _ _)
    omega
  · have hone : countShare w n i ≤ ∑ k ∈ range n, countShare w n k :=
      single_le_sum (f := fun k => countShare w n k) (fun _ _ => Nat.zero_le _) (mem_range.mpr hi)
    omega

/-! ## The tables of one step -/

/-- Counts that are positive and sum to `TQ_AC_TOT`. -/
structure CountsTile (cnt : Nat → UInt32) (n : Nat) : Prop where
  total : ∑ i ∈ range n, (cnt i).toNat = tqAcTot.toNat
  pos : ∀ i < n, 1 ≤ cnt i

theorem countsTile_normalize (c : Nat → UInt32) {w : Nat → UInt64} {n : Nat} (hpos : 0 < n)
    (hn : n ≤ 2 ^ 16) (hw : ∑ i ∈ range n, (w i).toNat ≤ 2 ^ 41) :
    CountsTile (tqAcNormalize c w n) n := by
  obtain ⟨htotal, hcnt⟩ := normalize_sum_pos c hpos hn hw
  exact ⟨htotal, fun i hi => UInt32.le_iff_toNat_le.mpr (hcnt i hi)⟩

section Tables
variable {F : Type} (gt : F → F → Bool) (deltaQ16 : F → F → Int)
variable {V : Vocab} {pm : TqAcModel} (logits : Nat → F)

/-- The maximum is one of the logits. -/
theorem tqAcMax_mem (base : Nat) : ∀ m, ∃ k ≤ m, tqAcMax gt logits base m = logits (base + k)
  | 0 => ⟨0, Nat.le_refl 0, rfl⟩
  | m + 1 => by
      obtain ⟨k, hk, hmax⟩ := tqAcMax_mem base m
      rw [tqAcMax]
      split
      · exact ⟨m + 1, Nat.le_refl _, rfl⟩
      · exact ⟨k, Nat.le_succ_of_le hk, hmax⟩

/-- The weight that a bucket should have: the sum over its symbols. -/
def bucketMass (max : F) (vocab b : Nat) : Nat :=
  ∑ k ∈ range vocab, if k / tqAcBucket = b then (tqAcExp2Q24 (deltaQ16 (logits k) max)).toNat else 0

/-- **Bucket weights** are added up without wrapping. -/
theorem bucketWeights_exact {max : F} {w : Nat → UInt64} {b : Nat} (h : w b = 0) :
    ∀ i ≤ 2 ^ 16, (tqAcBucketWeights deltaQ16 logits max w i b).toNat =
      bucketMass deltaQ16 logits max i b := by
  intro i
  induction i with
  | zero =>
      intro _
      rw [tqAcBucketWeights, h]
      rfl
  | succ i ih =>
      intro hi
      have ih := ih (Nat.le_of_succ_le hi)
      have hsplit : bucketMass deltaQ16 logits max (i + 1) b = bucketMass deltaQ16 logits max i b +
          if i / tqAcBucket = b then (tqAcExp2Q24 (deltaQ16 (logits i) max)).toNat else 0 :=
        sum_range_succ _ i
      have hbound : bucketMass deltaQ16 logits max i b ≤ i * 2 ^ 25 := by
        refine (sum_le_card_nsmul _ _ (2 ^ 25) fun k _ => ?_).trans_eq (by simp)
        split
        · exact tqAcExp2Q24_le _
        · exact Nat.zero_le _
      have hx := toUInt64_exp2_le (deltaQ16 (logits i) max)
      rw [tqAcBucketWeights, hsplit, Function.update_apply]
      by_cases hb : b = i / tqAcBucket
      · rw [if_pos hb, if_pos hb.symm, ← hb, UInt64.toNat_add, ih, ← UInt32.toNat_toUInt64]
        exact Nat.mod_eq_of_lt (by omega)
      · rw [if_neg hb, if_neg (Ne.symm hb), Nat.add_zero, ih]

/-- The delta of a bucket's symbol from the bucket's maximum. -/
def symbolDelta (pm : TqAcModel) (b i : Nat) : Int :=
  deltaQ16 (logits (b * tqAcBucket + i))
    (tqAcMax gt logits (b * tqAcBucket) (tqAcBucketSize pm b - 1))

theorem symbolWeights_sum_le (pm : TqAcModel) (w : Nat → UInt64) (b : Nat) :
    ∑ i ∈ range (tqAcBucketSize pm b), (fill w (tqAcBucketSize pm b) (fun i =>
      (tqAcExp2Q24 (symbolDelta gt deltaQ16 logits pm b i)).toUInt64) i).toNat ≤ 2 ^ 41 := by
  rw [sum_congr rfl fun i hi => by rw [fill_lt (mem_range.mp hi)]]
  refine (sum_le_card_nsmul _ _ _ fun k _ => toUInt64_exp2_le _).trans ?_
  rw [card_range, Nat.nsmul_eq_mul]
  exact (Nat.mul_le_mul_right _ (bucketSize_le pm b)).trans (by decide)

/-- **Symbols in order**: where no delta is positive and that of the maximum is
zero, a symbol of larger delta never has the smaller count. -/
theorem symbolCounts_mono (h : pm.For V) {b : Nat} (hb : b < V.nbuckets)
    (hle : ∀ x max, deltaQ16 x max ≤ 0) (hzero : ∀ max, deltaQ16 max max = 0) {i j : Nat}
    (hi : i < tqAcBucketSize pm b) (hj : j < tqAcBucketSize pm b)
    (hlt : symbolDelta gt deltaQ16 logits pm b j < symbolDelta gt deltaQ16 logits pm b i) :
    (tqAcSymbolCounts gt deltaQ16 pm logits b).scnt j ≤
      (tqAcSymbolCounts gt deltaQ16 pm logits b).scnt i := by
  have hsum := symbolWeights_sum_le gt deltaQ16 logits pm pm.w b
  have hn : tqAcBucketSize pm b ≤ 2 ^ 16 := (bucketSize_le pm b).trans (by decide)
  show tqAcNormalize pm.scnt (fill pm.w (tqAcBucketSize pm b) (fun i =>
      (tqAcExp2Q24 (symbolDelta gt deltaQ16 logits pm b i)).toUInt64)) (tqAcBucketSize pm b) j ≤
    tqAcNormalize pm.scnt (fill pm.w (tqAcBucketSize pm b) (fun i =>
      (tqAcExp2Q24 (symbolDelta gt deltaQ16 logits pm b i)).toUInt64)) (tqAcBucketSize pm b) i
  have hweight : ∀ k < tqAcBucketSize pm b, (fill pm.w (tqAcBucketSize pm b) (fun i =>
      (tqAcExp2Q24 (symbolDelta gt deltaQ16 logits pm b i)).toUInt64) k).toNat =
        (tqAcExp2Q24 (symbolDelta gt deltaQ16 logits pm b k)).toNat := by
    intro k hk
    rw [fill_lt hk, UInt32.toNat_toUInt64]
  generalize fill pm.w (tqAcBucketSize pm b) _ = w at hsum hweight ⊢
  -- the symbol at the maximum has the full weight
  obtain ⟨m, hm, hmax⟩ := tqAcMax_mem gt logits (b * tqAcBucket) (tqAcBucketSize pm b - 1)
  have hm' : m < tqAcBucketSize pm b := by
    have := bucketSize_pos h hb
    omega
  have hfull : (w m).toNat = 2 ^ 24 := by
    rw [hweight m hm', symbolDelta, hmax, hzero]
    exact tqAcExp2Q24_zero
  have htotal : (w m).toNat ≤ ∑ k ∈ range (tqAcBucketSize pm b), (w k).toNat :=
    single_le_sum (f := fun k => (w k).toNat) (fun _ _ => Nat.zero_le _) (mem_range.mpr hm')
  refine normalize_mono pm.scnt hn hsum (by omega) hi hj ?_ ?_
  · rw [hweight i hi, hweight j hj]
    exact tqAcExp2Q24_mono hlt.le
  · -- so the leftover goes to a symbol of delta zero, which `j` is not
    intro htop
    have hheaviest := le_sumTop_top (w := w) hm'
    have hsmall : (tqAcExp2Q24 (symbolDelta gt deltaQ16 logits pm b j)).toNat < 2 ^ 24 :=
      tqAcExp2Q24_lt (lt_of_lt_of_le hlt (hle _ _))
    rw [← htop, hweight j hj, hfull] at hheaviest
    omega

/-- **The count tables** of a step tile `[0, TQ_AC_TOT)` without wrapping
anywhere, and their counts are in the order of the weights, and of the deltas. -/
theorem tqAcCounts_ordered (h : pm.For V) {b : Nat} (hb : b < V.nbuckets) :
    let pm₁ := tqAcBucketCounts gt deltaQ16 pm logits
    let pm₂ := tqAcSymbolCounts gt deltaQ16 pm₁ logits b
    let max := tqAcMax gt logits 0 (V.size - 1)
    let n := tqAcBucketSize pm₁ b
    (CountsTile pm₁.bcnt V.nbuckets ∧ CountsTile pm₂.scnt n) ∧
    (Exp2InRange ∧ (∀ k < V.nbuckets, (pm₁.w k).toNat = bucketMass deltaQ16 logits max V.size k) ∧
      NormalizeInRange pm₁.w V.nbuckets ∧ NormalizeInRange pm₂.w n) ∧
    (∀ i < V.nbuckets, ∀ j < V.nbuckets, pm₁.w j < pm₁.w i → pm₁.bcnt j ≤ pm₁.bcnt i) ∧
    ((∀ x max, deltaQ16 x max ≤ 0) → (∀ max, deltaQ16 max max = 0) → ∀ i < n, ∀ j < n,
      symbolDelta gt deltaQ16 logits pm₁ b j < symbolDelta gt deltaQ16 logits pm₁ b i →
        pm₂.scnt j ≤ pm₂.scnt i) := by
  intro pm₁ pm₂ max n
  have h₁ : pm₁.For V := bucketCounts_for gt deltaQ16 logits h
  have hnb : V.nbuckets ≤ 2 ^ 16 := V.nbuckets_le.trans (by decide)
  have hns : n ≤ 2 ^ 16 := (bucketSize_le pm₁ b).trans (by decide)
  have hw₁ : pm₁.w =
      tqAcBucketWeights deltaQ16 logits max (fill pm.w V.nbuckets fun _ => 0) V.size := by
    show tqAcBucketWeights deltaQ16 logits (tqAcMax gt logits 0 (pm.vocab - 1))
      (fill pm.w pm.nbuckets fun _ => 0) pm.vocab = _
    rw [h.vocab, h.nbuckets]
  have hb₁ : pm₁.bcnt = tqAcNormalize pm.bcnt pm₁.w V.nbuckets := by
    show tqAcNormalize pm.bcnt pm₁.w pm.nbuckets = _
    rw [h.nbuckets]
  have hsum₁ : ∑ k ∈ range V.nbuckets, (pm₁.w k).toNat ≤ 2 ^ 41 := by
    rw [hw₁]
    exact bucketWeights_le deltaQ16 logits V fun k hk => fill_lt hk
  have hsum₂ := symbolWeights_sum_le gt deltaQ16 logits pm₁ pm₁.w b
  refine ⟨⟨?_, ?_⟩,
    ⟨exp2InRange, ?_, normalizeInRange hnb hsum₁, normalizeInRange hns hsum₂⟩, ?_, ?_⟩
  · rw [hb₁]
    exact countsTile_normalize _ V.nbuckets_pos hnb hsum₁
  · exact countsTile_normalize _ (bucketSize_pos h₁ hb) hns hsum₂
  · intro k hk
    rw [hw₁]
    exact bucketWeights_exact deltaQ16 logits (fill_lt hk) _ V.le
  · intro i hi j hj hlt
    rw [hb₁]
    exact normalize_strict _ hnb hsum₁ hi hj hlt
  · intro hle hzero i hi j hj hlt
    exact symbolCounts_mono gt deltaQ16 logits h₁ hb hle hzero hi hj hlt

end Tables

/-- Three symbols with whole numbers for logits, the last the most likely. -/
theorem tqAcCounts_ordered_three :
    let V : Vocab := ⟨3, by decide, by decide⟩
    let delta : Int → Int → Int := fun x max => min (x - max) 0
    let logits : Nat → Int := fun i => 65536 * i
    let pm₁ := tqAcBucketCounts (fun x y => decide (y < x)) delta V.model logits
    let pm₂ := tqAcSymbolCounts (fun x y => decide (y < x)) delta pm₁ logits 0
    CountsTile pm₂.scnt (tqAcBucketSize pm₁ 0) ∧ pm₂.scnt 0 ≤ pm₂.scnt 2 := by
  intro V delta logits pm₁ pm₂
  obtain ⟨⟨-, htile⟩, -, -, horder⟩ := tqAcCounts_ordered (fun x y => decide (y < x)) delta logits
    V.model_for V.nbuckets_pos
  refine ⟨htile, horder (fun x max => min_le_right _ _) (fun max => ?_) 2 (by decide) 0
    (by decide) (by decide)⟩
  show min (max - max) 0 = 0
  rw [sub_self, min_self]

end TinyLlm
