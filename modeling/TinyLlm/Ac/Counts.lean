/-
# `TinyLlm.Ac.Counts` — the tables tile `[0, TQ_AC_TOT)`

`tq_ac_normalize` turns weights into counts: one count is reserved for each
entry, the rest is shared in proportion and the truncation leftover goes to
the heaviest.  With at most `2 ^ 16` entries and weights that sum to at most
`2 ^ 41` no product wraps, every count is positive and the counts sum to
`TQ_AC_TOT` exactly (`CountTable.normalize`).

Both ends rebuild the tables from the logits, over scratch that holds whatever
was left there: what a table says below its size depends on the logits only
(`normalize_congr`, `bucketWeights_congr`).
-/
import TinyLlm.Ac.RoundTrip

namespace TinyLlm

open Finset

theorem toNat_tqAcTot : tqAcTot.toNat = 2 ^ 16 := by decide

/-! ## Weights -/

/-- The polynomial of `tq_ac_exp2_q24` stays below the sum of its coefficients. -/
theorem exp2_fold_le {f : Nat} (hf : f ≤ 65536) : ∀ (ks : List Nat) (acc : Nat),
    ks.foldl (fun acc k => acc * f / 65536 + tqExp2C.getD k 0) acc
      ≤ acc + (ks.map fun k => tqExp2C.getD k 0).sum
  | [], acc => Nat.le_refl acc
  | k :: ks, acc => by
      have hstep : acc * f / 65536 ≤ acc :=
        Nat.div_le_of_le_mul (by rw [Nat.mul_comm]; exact Nat.mul_le_mul_right acc hf)
      have hrest := exp2_fold_le hf ks (acc * f / 65536 + tqExp2C.getD k 0)
      rw [List.foldl_cons, List.map_cons, List.sum_cons]
      omega

theorem exp2_acc_le {f : Nat} (hf : f ≤ 65536) :
    [5, 4, 3, 2, 1, 0].foldl (fun acc k => acc * f / 65536 + tqExp2C.getD k 0) (tqExp2C.getD 6 0)
      ≤ 2 ^ 25 := by
  have hacc := exp2_fold_le hf [5, 4, 3, 2, 1, 0] (tqExp2C.getD 6 0)
  have hsum : tqExp2C.getD 6 0 + ([5, 4, 3, 2, 1, 0].map fun k => tqExp2C.getD k 0).sum =
      2 ^ 25 := by
    decide
  rwa [hsum] at hacc

theorem tqAcExp2Q24_le (x : Int) : (tqAcExp2Q24 x).toNat ≤ 2 ^ 25 := by
  unfold tqAcExp2Q24
  dsimp only
  generalize (if x > 0 then 0 else x) = y
  have hacc := exp2_acc_le (f := (y % 65536).toNat) (by omega)
  generalize List.foldl _ _ _ = acc at hacc
  split
  · decide
  · have hdiv := Nat.div_le_self acc (2 ^ (-(y / 65536)).toNat)
    generalize acc / 2 ^ (-(y / 65536)).toNat = q at hdiv
    have hq : (UInt32.ofNat q).toNat = q := UInt32.toNat_ofNat_of_lt' (by
      show q < 4294967296
      omega)
    rw [hq]
    omega

/-- A logit far below the maximum has no weight. -/
theorem tqAcExp2Q24_far {x : Int} (h : x < -25 * 65536) : tqAcExp2Q24 x = 0 := by
  unfold tqAcExp2Q24
  dsimp only
  rw [if_neg (show ¬ x > 0 by omega)]
  have hacc := exp2_acc_le (f := (x % 65536).toNat) (by omega)
  generalize List.foldl _ _ _ = acc at hacc
  split
  · rfl
  · have hshift : 26 ≤ (-(x / 65536)).toNat := by omega
    have hpow : 2 ^ 26 ≤ 2 ^ (-(x / 65536)).toNat := Nat.pow_le_pow_right Nat.two_pos hshift
    rw [Nat.div_eq_of_lt (by omega)]
    rfl

/-- The same, in the 64 bits that the weights are summed in. -/
theorem toUInt64_exp2_le (x : Int) : (tqAcExp2Q24 x).toUInt64.toNat ≤ 2 ^ 25 := by
  rw [UInt32.toNat_toUInt64]
  exact tqAcExp2Q24_le x

/-! ## The sum and the heaviest entry -/

section SumTop
variable {w w' : Nat → UInt64}

theorem sumTop_top_le : ∀ n, (tqAcSumTop w n).2 ≤ n - 1
  | 0 => Nat.le_refl _
  | n + 1 => by
      have ih := sumTop_top_le n
      rw [tqAcSumTop]
      dsimp only
      split
      · exact Nat.le_refl _
      · omega

theorem sumTop_top_lt {n : Nat} (hn : 0 < n) : (tqAcSumTop w n).2 < n := by
  have := sumTop_top_le (w := w) n
  omega

theorem sumTop_sum : ∀ {n : Nat}, ∑ i ∈ range n, (w i).toNat < 2 ^ 64 →
    (tqAcSumTop w n).1.toNat = ∑ i ∈ range n, (w i).toNat
  | 0, _ => rfl
  | n + 1, h => by
      rw [sum_range_succ] at h ⊢
      rw [tqAcSumTop, UInt64.toNat_add, sumTop_sum (by omega)]
      exact Nat.mod_eq_of_lt h

theorem sumTop_congr : ∀ {n : Nat}, (∀ i < n, w i = w' i) → tqAcSumTop w n = tqAcSumTop w' n
  | 0, _ => rfl
  | n + 1, h => by
      have ih := sumTop_congr fun i hi => h i (Nat.lt_succ_of_lt hi)
      have htop := sumTop_top_le (w := w') n
      rw [tqAcSumTop, tqAcSumTop, ih, h n (Nat.lt_succ_self n), h (tqAcSumTop w' n).2 (by omega)]

/-- The heaviest entry is heaviest. -/
theorem le_sumTop_top : ∀ {n i : Nat}, i < n → (w i).toNat ≤ (w (tqAcSumTop w n).2).toNat
  | n + 1, i, hi => by
      rw [tqAcSumTop]
      dsimp only
      rcases Nat.lt_succ_iff_lt_or_eq.mp hi with hlt | rfl
      · have ih := le_sumTop_top hlt
        split
        · next hgt => exact ih.trans (UInt64.lt_iff_toNat_lt.mp hgt).le
        · exact ih
      · split
        · exact Nat.le_refl _
        · next hle => exact Nat.le_of_not_lt fun hlt => hle (UInt64.lt_iff_toNat_lt.mpr hlt)

end SumTop

/-! ## Normalising -/

theorem cum_congr {c c' : Nat → UInt32} : ∀ {n : Nat}, (∀ i < n, c i = c' i) →
    tqAcCum c n = tqAcCum c' n
  | 0, _ => rfl
  | n + 1, h => by
      rw [tqAcCum, tqAcCum, cum_congr fun i hi => h i (Nat.lt_succ_of_lt hi),
        h n (Nat.lt_succ_self n)]

/-- Counts that do not wrap add up as numbers. -/
theorem toNat_cum_of_lt {c : Nat → UInt32} : ∀ {n : Nat},
    ∑ i ∈ range n, (c i).toNat < 2 ^ 32 → (tqAcCum c n).toNat = ∑ i ∈ range n, (c i).toNat
  | 0, _ => rfl
  | n + 1, h => by
      rw [sum_range_succ] at h ⊢
      rw [tqAcCum, UInt32.toNat_add, toNat_cum_of_lt (by omega)]
      exact Nat.mod_eq_of_lt h

theorem fill_congr {α : Type} {a a' f f' : Nat → α} {n : Nat} (h : ∀ i < n, f i = f' i) :
    ∀ i < n, fill a n f i = fill a' n f' i := by
  intro i hi
  rw [fill_lt hi, fill_lt hi, h i hi]

theorem raise_congr {c c' : Nat → UInt32} {n top : Nat} {d d' : UInt32} (htop : top < n)
    (hd : d = d') (h : ∀ i < n, c i = c' i) :
    ∀ i < n, tqAcRaise c top d i = tqAcRaise c' top d' i := by
  intro i hi
  rw [tqAcRaise, tqAcRaise, Function.update_apply, Function.update_apply, h i hi, h top htop, hd]

/-- What a table says below its size does not depend on what was there before. -/
theorem normalize_congr {c c' : Nat → UInt32} {w w' : Nat → UInt64} {n : Nat}
    (h : ∀ i < n, w i = w' i) : ∀ i < n, tqAcNormalize c w n i = tqAcNormalize c' w' n i := by
  intro i hi
  have htop : (tqAcSumTop w' n).2 < n := sumTop_top_lt (Nat.lt_of_le_of_lt (Nat.zero_le i) hi)
  unfold tqAcNormalize
  rw [sumTop_congr h]
  dsimp only
  split
  · exact raise_congr htop rfl (fill_congr fun _ _ => rfl) i hi
  · have hfill : ∀ k < n,
        fill c n (fun i =>
          1 + (w i * (tqAcTot - UInt32.ofNat n).toUInt64 / (tqAcSumTop w' n).1).toUInt32) k
        = fill c' n (fun i =>
          1 + (w' i * (tqAcTot - UInt32.ofNat n).toUInt64 / (tqAcSumTop w' n).1).toUInt32) k :=
      fill_congr fun k hk => by rw [h k hk]
    exact raise_congr htop (by rw [cum_congr hfill]) hfill i hi

/-- Adding what is missing to one count. -/
theorem raise_sum_pos {c : Nat → UInt32} {n top : Nat} (htop : top < n) {d : UInt32}
    (h : ∑ i ∈ range n, (c i).toNat + d.toNat < 2 ^ 32) :
    ∑ i ∈ range n, (tqAcRaise c top d i).toNat = ∑ i ∈ range n, (c i).toNat + d.toNat ∧
      ∀ i, (c i).toNat ≤ (tqAcRaise c top d i).toNat := by
  have hle : (c top).toNat ≤ ∑ i ∈ range n, (c i).toNat :=
    single_le_sum (f := fun i => (c i).toNat) (fun _ _ => Nat.zero_le _) (mem_range.mpr htop)
  have hraise : ∀ i, (tqAcRaise c top d i).toNat
      = Function.update (fun i => (c i).toNat) top ((c top).toNat + d.toNat) i := by
    intro i
    rw [tqAcRaise, Function.update_apply, Function.update_apply]
    split
    · rw [UInt32.toNat_add]
      exact Nat.mod_eq_of_lt (by omega)
    · rfl
  constructor
  · rw [← Tiling.sum_update_add htop (fun i => (c i).toNat) d.toNat]
    exact sum_congr rfl fun i _ => hraise i
  · intro i
    rw [hraise, Function.update_apply]
    split
    · next heq => rw [heq]; exact Nat.le_add_right _ _
    · exact Nat.le_refl _

section Normalize
variable {c : Nat → UInt32} {w : Nat → UInt64} {n : Nat}

theorem toNat_spread (hn : n ≤ 2 ^ 16) : (tqAcTot - UInt32.ofNat n).toNat = 2 ^ 16 - n := by
  have hof : (UInt32.ofNat n).toNat = n :=
    UInt32.toNat_ofNat_of_lt' (by show n < 4294967296; omega)
  have htot := toNat_tqAcTot
  rw [UInt32.toNat_sub_of_le _ _ (UInt32.le_iff_toNat_le.mpr (by rw [hof, htot]; exact hn)),
    htot, hof]

/-- One share, computed without wrapping. -/
theorem toNat_share (hn : n ≤ 2 ^ 16) (hw : ∑ i ∈ range n, (w i).toNat ≤ 2 ^ 41) {i : Nat}
    (hi : i < n) :
    (1 + (w i * (tqAcTot - UInt32.ofNat n).toUInt64 / (tqAcSumTop w n).1).toUInt32).toNat
      = 1 + (w i).toNat * (2 ^ 16 - n) / ∑ k ∈ range n, (w k).toNat := by
  have hle : (w i).toNat ≤ ∑ k ∈ range n, (w k).toNat :=
    single_le_sum (f := fun i => (w i).toNat) (fun _ _ => Nat.zero_le _) (mem_range.mpr hi)
  have hmul : (w i).toNat * (2 ^ 16 - n) ≤ 2 ^ 41 * 2 ^ 16 :=
    Nat.mul_le_mul (by omega) (Nat.sub_le _ _)
  have hshare : (w i).toNat * (2 ^ 16 - n) / ∑ k ∈ range n, (w k).toNat ≤ 2 ^ 16 - n :=
    Nat.div_le_of_le_mul (Nat.mul_le_mul_right _ hle)
  have hdiv : (w i * (tqAcTot - UInt32.ofNat n).toUInt64 / (tqAcSumTop w n).1).toNat
      = (w i).toNat * (2 ^ 16 - n) / ∑ k ∈ range n, (w k).toNat := by
    rw [UInt64.toNat_div, UInt64.toNat_mul, UInt32.toNat_toUInt64, toNat_spread hn,
      sumTop_sum (by omega), Nat.mod_eq_of_lt (a := _ * _) (by omega)]
  rw [UInt32.toNat_add, UInt64.toNat_toUInt32, hdiv]
  have hone : (1 : UInt32).toNat = 1 := rfl
  rw [hone]
  omega

/-- Ones below `n`: the table of a degenerate distribution before the leftover. -/
theorem sum_fill_one (c : Nat → UInt32) (n : Nat) :
    ∑ i ∈ range n, (fill c n (fun _ => 1) i).toNat = n := by
  rw [sum_congr rfl fun i hi => by rw [fill_lt (mem_range.mp hi)]]
  simp

/-- Reserved counts and truncated shares stay within the total. -/
theorem sum_fill_share (c : Nat → UInt32) (hn : n ≤ 2 ^ 16)
    (hw : ∑ i ∈ range n, (w i).toNat ≤ 2 ^ 41) (hS : 0 < ∑ i ∈ range n, (w i).toNat) :
    ∑ i ∈ range n, (fill c n (fun i =>
      1 + (w i * (tqAcTot - UInt32.ofNat n).toUInt64 / (tqAcSumTop w n).1).toUInt32) i).toNat
      ≤ 2 ^ 16 := by
  have hshare := Tiling.sum_share_le_spread (2 ^ 16 - n) hS
  calc _ = ∑ i ∈ range n, (1 + (w i).toNat * (2 ^ 16 - n) / ∑ k ∈ range n, (w k).toNat) :=
        sum_congr rfl fun i hi => by
          rw [fill_lt (mem_range.mp hi), toNat_share hn hw (mem_range.mp hi)]
    _ = n + ∑ i ∈ range n, (w i).toNat * (2 ^ 16 - n) / ∑ k ∈ range n, (w k).toNat := by
        rw [sum_add_distrib]
        simp
    _ ≤ n + (2 ^ 16 - n) := Nat.add_le_add_left hshare n
    _ = 2 ^ 16 := Nat.add_sub_cancel' hn

/-- **The counts sum to the total**, and none is zero. -/
theorem normalize_sum_pos (c : Nat → UInt32) (hpos : 0 < n) (hn : n ≤ 2 ^ 16)
    (hw : ∑ i ∈ range n, (w i).toNat ≤ 2 ^ 41) :
    ∑ i ∈ range n, (tqAcNormalize c w n i).toNat = 2 ^ 16 ∧
      ∀ i < n, 0 < (tqAcNormalize c w n i).toNat := by
  have htop := sumTop_top_lt (w := w) hpos
  have hspread := toNat_spread hn
  have hsum := sumTop_sum (w := w) (n := n) (by omega)
  have htot := toNat_tqAcTot
  unfold tqAcNormalize
  dsimp only
  split
  · -- no weight at all: one count each, the rest to the first entry
    have hones := sum_fill_one c n
    obtain ⟨heq, hle⟩ := raise_sum_pos (c := fill c n fun _ => 1) htop
      (d := tqAcTot - UInt32.ofNat n) (by omega)
    refine ⟨by rw [heq, hones, hspread]; omega, fun i hi => Nat.lt_of_lt_of_le ?_ (hle i)⟩
    rw [fill_lt hi]
    exact Nat.one_pos
  · next hne =>
    have hS : 0 < ∑ k ∈ range n, (w k).toNat := by
      rw [← hsum]
      refine Nat.pos_of_ne_zero fun hz => hne ?_
      rw [← UInt64.toNat_inj, hz]
      rfl
    have hused := sum_fill_share c hn hw hS
    have hshare : ∀ i < n, 0 < (fill c n (fun i =>
        1 + (w i * (tqAcTot - UInt32.ofNat n).toUInt64 / (tqAcSumTop w n).1).toUInt32) i).toNat :=
      fun i hi => by
        rw [fill_lt hi, toNat_share hn hw hi]
        exact Nat.lt_of_lt_of_le Nat.one_pos (Nat.le_add_right 1 _)
    generalize fill c n _ = c₁ at hused hshare ⊢
    have hcum := toNat_cum_of_lt (c := c₁) (n := n) (by omega)
    have hleft : (tqAcTot - tqAcCum c₁ n).toNat = 2 ^ 16 - ∑ i ∈ range n, (c₁ i).toNat := by
      rw [UInt32.toNat_sub_of_le _ _ (UInt32.le_iff_toNat_le.mpr (by rw [hcum, htot]; exact hused)),
        htot, hcum]
    obtain ⟨heq, hle⟩ := raise_sum_pos (c := c₁) htop (d := tqAcTot - tqAcCum c₁ n) (by omega)
    refine ⟨by rw [heq, hleft]; omega, fun i hi => Nat.lt_of_lt_of_le (hshare i hi) (hle i)⟩

/-- An entry without weight keeps its one count, if another has weight. -/
theorem normalize_weightless (c : Nat → UInt32)
    (hw : ∑ i ∈ range n, (w i).toNat ≤ 2 ^ 41) {i k : Nat} (hi : i < n) (hk : k < n)
    (hzero : w i = 0) (hpos : 0 < (w k).toNat) : tqAcNormalize c w n i = 1 := by
  have hmax := le_sumTop_top (w := w) hk
  have htop : i ≠ (tqAcSumTop w n).2 := by
    intro heq
    rw [← heq, hzero] at hmax
    exact absurd hpos (Nat.not_lt_of_le hmax)
  have hsum := sumTop_sum (w := w) (n := n) (by omega)
  have hle : (w k).toNat ≤ ∑ i ∈ range n, (w i).toNat :=
    single_le_sum (f := fun i => (w i).toNat) (fun _ _ => Nat.zero_le _) (mem_range.mpr hk)
  have hne : (tqAcSumTop w n).1 ≠ 0 := by
    intro hz
    rw [hz] at hsum
    have hzero : (0 : UInt64).toNat = 0 := rfl
    omega
  unfold tqAcNormalize
  dsimp only
  rw [if_neg hne, tqAcRaise, Function.update_of_ne htop, fill_lt hi, hzero, UInt64.zero_mul,
    UInt64.zero_div]
  rfl

/-- The table that `tq_ac_normalize` leaves. -/
def CountTable.normalize (c : Nat → UInt32) (w : Nat → UInt64) (n : Nat) (hpos : 0 < n)
    (hn : n ≤ 2 ^ 16) (hw : ∑ i ∈ range n, (w i).toNat ≤ 2 ^ 41) : CountTable where
  cnt := tqAcNormalize c w n
  n := n
  n_pos := hpos
  cnt_pos := (normalize_sum_pos c hpos hn hw).2
  total_le := (normalize_sum_pos c hpos hn hw).1.le

theorem CountTable.normalize_tot (hpos : 0 < n) (hn : n ≤ 2 ^ 16)
    (hw : ∑ i ∈ range n, (w i).toNat ≤ 2 ^ 41) :
    (CountTable.normalize c w n hpos hn hw).tot = tqAcTot := by
  rw [← UInt32.toNat_inj, CountTable.toNat_tot]
  exact (normalize_sum_pos c hpos hn hw).1

end Normalize

/-- Tables with the same counts have the same slots. -/
theorem CountTable.slot_congr {T T' : CountTable} (hn : T.n = T'.n)
    (h : ∀ i < T.n, T.cnt i = T'.cnt i) {i : Nat} (hi : i < T.n) (hi' : i < T'.n) :
    T.slot i hi = T'.slot i hi' := by
  have hsum : ∀ k ≤ T.n, ∑ j ∈ range k, (T.cnt j).toNat = ∑ j ∈ range k, (T'.cnt j).toNat :=
    fun k hk => sum_congr rfl fun j hj => by
      rw [h j (Nat.lt_of_lt_of_le (mem_range.mp hj) hk)]
  unfold CountTable.slot
  simp only [hsum i hi.le, h i hi, ← hn, hsum T.n le_rfl]

end TinyLlm
