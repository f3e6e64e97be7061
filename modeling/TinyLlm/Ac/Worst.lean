/-
# `TinyLlm.Ac.Worst` — the most bytes a token can take

A symbol takes two bytes at most, and one whose table has a single entry takes
none.  A token is two symbols, so `tokenBytes` is what it takes at most
(`codeToken_digits_le`).

The bound is reached.  `worstLogits` puts the token far below the rest of its
bucket, and its bucket far below all others: neither has any weight, so both
keep the one count that every entry has (`codeToken_worst`).  Three logits are
enough for that (`Levels`).
-/
import Mathlib.Order.Lattice.Nat
import TinyLlm.Ac.Message
import TinyLlm.Ac.Token

namespace TinyLlm

open IntervalCoding Finset

/-! ## Digits of a symbol -/

/-- Bytes that a symbol of a table with `n` entries takes at most. -/
def symbolBytes (n : Nat) : Nat := if n = 1 then 0 else 2

/-- The width after a symbol with one count. -/
def fullWidth : Nat := 0xFFFF0000

section Digits
variable {s : Iv} {t : Slot}

theorem code_width (hw : 2 ^ 24 ≤ s.width) (ht : t.tot = 2 ^ 16) :
    2 ^ 24 ≤ (s.code 256 (2 ^ 24) 3 t).width := by
  refine Iv.top_le_renorm_width 3 ?_
  have hpos := t.freq_pos
  have hpart : 2 ^ 8 ≤ s.width / 2 ^ 16 := (Nat.le_div_iff_mul_le (by decide)).mpr hw
  have hnarrow : 2 ^ 8 * 1 ≤ (s.narrow t).width := by
    show _ ≤ s.width / t.tot * t.freq
    rw [ht]
    exact Nat.mul_le_mul hpart hpos
  omega

/-- **A symbol** adds two digits at most. -/
theorem code_digits_le (hw : 2 ^ 24 ≤ s.width) (ht : t.tot = 2 ^ 16) :
    (s.code 256 (2 ^ 24) 3 t).digits ≤ s.digits + 2 := by
  refine Iv.renorm_digits_le_of 3 (s := s.narrow t) ?_
  have hpos := t.freq_pos
  have hpart : 2 ^ 8 ≤ s.width / 2 ^ 16 := (Nat.le_div_iff_mul_le (by decide)).mpr hw
  have hnarrow : 2 ^ 8 * 1 ≤ (s.narrow t).width := by
    show _ ≤ s.width / t.tot * t.freq
    rw [ht]
    exact Nat.mul_le_mul hpart hpos
  omega

/-- The only symbol of its table adds none. -/
theorem code_digits_whole (hw : 2 ^ 24 ≤ s.width) (ht : t.tot = 2 ^ 16) (hf : t.freq = 2 ^ 16) :
    (s.code 256 (2 ^ 24) 3 t).digits ≤ s.digits := by
  refine Iv.renorm_digits_le_of 3 (k := 0) (s := s.narrow t) ?_
  show 2 ^ 24 ≤ s.width / t.tot * t.freq * 256 ^ 0
  rw [ht, hf]
  omega

/-- A symbol with one count adds two. -/
theorem code_unit (hw : s.width = fullWidth) (ht : t.tot = 2 ^ 16) (hf : t.freq = 1) :
    (s.code 256 (2 ^ 24) 3 t).width = fullWidth ∧
      (s.code 256 (2 ^ 24) 3 t).digits = s.digits + 2 := by
  have hnarrow : (s.narrow t).width = 0xFFFF := by
    show s.width / t.tot * t.freq = _
    rw [hw, ht, hf]
    decide
  have hdigits : (s.narrow t).digits = s.digits := rfl
  unfold Iv.code
  rw [← hdigits]
  generalize s.narrow t = r at hnarrow
  simp [Iv.renorm, Iv.grow, hnarrow, fullWidth]

/-- The only symbol of its table leaves the width as well. -/
theorem code_whole (hw : s.width = fullWidth) (ht : t.tot = 2 ^ 16) (hf : t.freq = 2 ^ 16) :
    (s.code 256 (2 ^ 24) 3 t).width = fullWidth ∧
      (s.code 256 (2 ^ 24) 3 t).digits = s.digits := by
  have hnarrow : (s.narrow t).width = 0xFFFF0000 := by
    show s.width / t.tot * t.freq = _
    rw [hw, ht, hf]
    decide
  have hdigits : (s.narrow t).digits = s.digits := rfl
  unfold Iv.code
  rw [← hdigits]
  generalize s.narrow t = r at hnarrow
  simp [Iv.renorm, hnarrow, fullWidth]

/-- The length symbol adds one, whatever the length is. -/
theorem code_len (ht : t.tot = 2 ^ 16) (hf : t.freq = 256) :
    (initIv.code 256 (2 ^ 24) 3 t).width = fullWidth ∧
      (initIv.code 256 (2 ^ 24) 3 t).digits = 5 := by
  have hnarrow : (initIv.narrow t).width = 0xFFFF00 := by
    show (2 ^ 32 - 1) / t.tot * t.freq = _
    rw [ht, hf]
    decide
  have hdigits : (initIv.narrow t).digits = 4 := rfl
  unfold Iv.code
  generalize initIv.narrow t = r at hnarrow hdigits
  simp [Iv.renorm, Iv.grow, hnarrow, hdigits, fullWidth]

end Digits

/-! ## Digits of a token -/

section Token
variable {F : Type} (gt : F → F → Bool) (deltaQ16 : F → F → Int)

/-- Bytes that a token takes at most. -/
def tokenBytes (V : Vocab) (token : Nat) : Nat :=
  symbolBytes V.nbuckets + symbolBytes (tqAcBucketSize V.model (token / tqAcBucket))

theorem slot_freq_whole (T : CountTable) (hn : T.n = 1) {i : Nat} (hi : i < T.n) :
    (T.slot i hi).freq = (T.slot i hi).tot := by
  have hzero : i = 0 := by omega
  show (T.cnt i).toNat = ∑ k ∈ range T.n, (T.cnt k).toNat
  rw [hn, hzero, sum_range_one]

theorem slot_tot (T : CountTable) (ht : T.tot = tqAcTot) {i : Nat} (hi : i < T.n) :
    (T.slot i hi).tot = 2 ^ 16 := by
  rw [← toNat_tqAcTot, ← ht, T.toNat_tot]
  rfl

/-- A symbol adds what its table allows. -/
theorem code_slot_digits_le {s : Iv} (hw : 2 ^ 24 ≤ s.width) (T : CountTable)
    (ht : T.tot = tqAcTot) {i : Nat} (hi : i < T.n) :
    (s.code 256 (2 ^ 24) 3 (T.slot i hi)).digits ≤ s.digits + symbolBytes T.n := by
  have htot := slot_tot T ht hi
  unfold symbolBytes
  split
  · next hn => exact code_digits_whole hw htot ((slot_freq_whole T hn hi).trans htot)
  · exact code_digits_le hw htot

/-- A symbol with one count, or the only one, adds all of that. -/
theorem code_slot_worst {s : Iv} (hw : s.width = fullWidth) (T : CountTable)
    (ht : T.tot = tqAcTot) {i : Nat} (hi : i < T.n) (h : T.n ≠ 1 → (T.slot i hi).freq = 1) :
    (s.code 256 (2 ^ 24) 3 (T.slot i hi)).width = fullWidth ∧
      (s.code 256 (2 ^ 24) 3 (T.slot i hi)).digits = s.digits + symbolBytes T.n := by
  have htot := slot_tot T ht hi
  unfold symbolBytes
  split
  · next hn => exact code_whole hw htot ((slot_freq_whole T hn hi).trans htot)
  · next hn => exact code_unit hw htot (h hn)

variable (logits : Nat → F)

/-- **A token** adds its bytes at most. -/
theorem codeToken_digits_le {s : Iv} (hw : 2 ^ 24 ≤ s.width) (V : Vocab) {token : Nat}
    (ht : token < V.size) :
    2 ^ 24 ≤ (codeToken gt deltaQ16 logits V s token ht).width ∧
      (codeToken gt deltaQ16 logits V s token ht).digits ≤ s.digits + tokenBytes V token := by
  have hb := Vocab.div_lt_nbuckets ht
  have hbucket := bucketTable_tot gt deltaQ16 logits V.model_for
  have hsymbol := symbolTable_tot gt deltaQ16 logits V.model_for hb
  have hw₁ := code_width hw (slot_tot _ hbucket hb)
  have h₁ := code_slot_digits_le hw _ hbucket hb
  have hs := mod_lt_bucketSize V.model_for ht
  have h₂ := code_slot_digits_le hw₁ _ hsymbol hs
  refine ⟨code_width hw₁ (slot_tot _ hsymbol hs), h₂.trans ?_⟩
  rw [symbolTable_n, tokenBytes, ← Nat.add_assoc]
  exact Nat.add_le_add_right h₁ _

end Token

/-! ## The logits that reach the bound -/

section Levels
variable {F : Type} (gt : F → F → Bool) (deltaQ16 : F → F → Int)

/-- Three logits, each far below the next. -/
structure Levels (level : Nat → F) : Prop where
  gt : ∀ a ≤ 2, ∀ b ≤ 2, gt (level a) (level b) = decide (b < a)
  same : ∀ a ≤ 2, deltaQ16 (level a) (level a) = 0
  below : ∀ b ≤ 2, ∀ a < b, deltaQ16 (level a) (level b) < -25 * 65536

/-- The token at the bottom, its bucket above it, all else on top. -/
def worstLevel (token i : Nat) : Nat :=
  if i = token then 0 else if i / tqAcBucket = token / tqAcBucket then 1 else 2

def worstLogits (level : Nat → F) (token i : Nat) : F := level (worstLevel token i)

variable {gt deltaQ16} {level : Nat → F} (hL : Levels gt deltaQ16 level)
include hL

theorem weight_below {a b : Nat} (hb : b ≤ 2) (h : a < b) :
    (tqAcExp2Q24 (deltaQ16 (level a) (level b))).toUInt64 = 0 := by
  rw [tqAcExp2Q24_far (hL.below b hb a h)]
  rfl

theorem weight_same {a : Nat} (h : a ≤ 2) :
    0 < (tqAcExp2Q24 (deltaQ16 (level a) (level a))).toUInt64.toNat := by
  rw [hL.same a h]
  decide

/-- The maximum of levels is the level of the maximum. -/
theorem tqAcMax_level {c : Nat → Nat} (hc : ∀ i, c i ≤ 2) (base : Nat) : ∀ k,
    tqAcMax gt (fun i => level (c i)) base k = level ((range (k + 1)).sup fun j => c (base + j))
  | 0 => by
      rw [tqAcMax, range_one, sup_singleton]
      rfl
  | k + 1 => by
      have ih := tqAcMax_level hc base k
      have hsup : ((range (k + 1)).sup fun j => c (base + j)) ≤ 2 :=
        Finset.sup_le fun j _ => hc (base + j)
      rw [tqAcMax, ih, hL.gt _ (hc _) _ hsup, range_add_one (n := k + 1), sup_insert]
      rcases Nat.lt_or_ge ((range (k + 1)).sup fun j => c (base + j)) (c (base + (k + 1)))
        with hlt | hge
      · rw [if_pos (decide_eq_true hlt), sup_of_le_left hlt.le]
      · rw [if_neg (by simpa using hge), sup_of_le_right hge]

omit hL in
theorem worstLevel_le (token i : Nat) : worstLevel token i ≤ 2 := by
  unfold worstLevel
  split
  · decide
  · split <;> decide

omit hL in
/-- A bucket whose symbols have no weight has none. -/
theorem bucketWeights_zero {logits : Nat → F} {max : F} {w : Nat → UInt64} {b : Nat} (h : w b = 0) :
    ∀ i, (∀ k < i, k / tqAcBucket = b → (tqAcExp2Q24 (deltaQ16 (logits k) max)).toUInt64 = 0) →
      tqAcBucketWeights deltaQ16 logits max w i b = 0
  | 0, _ => h
  | i + 1, hzero => by
      have ih := bucketWeights_zero h i fun k hk => hzero k (Nat.lt_succ_of_lt hk)
      rw [tqAcBucketWeights]
      rcases eq_or_ne b (i / tqAcBucket) with rfl | hne
      · rw [Function.update_self, ih, hzero i (Nat.lt_succ_self i) rfl]
        rfl
      · rw [Function.update_of_ne hne, ih]

/-- **The bucket** of the token keeps one count. -/
theorem bucketSlot_freq_one {V : Vocab} {token : Nat} (ht : token < V.size)
    (hmany : V.nbuckets ≠ 1) :
    (bucketSlot gt deltaQ16 (worstLogits level token) V token ht).freq = 1 := by
  -- a token in another bucket, on the top level
  obtain ⟨top, htop, hother⟩ : ∃ top < V.size, top / tqAcBucket ≠ token / tqAcBucket := by
    have hpos := V.nbuckets_pos
    unfold Vocab.nbuckets tqAcBucket at *
    rcases Nat.eq_zero_or_pos (token / 128) with hz | hp
    · exact ⟨128, by omega, by omega⟩
    · exact ⟨0, by omega, by omega⟩
  have hmax : tqAcMax gt (worstLogits level token) 0 (V.size - 1) = level 2 := by
    have hlevel := tqAcMax_level hL (worstLevel_le token) 0 (V.size - 1)
    refine hlevel.trans (congrArg level ?_)
    refine Nat.le_antisymm (Finset.sup_le fun j _ => worstLevel_le token _) ?_
    have hle := Finset.le_sup (f := fun j => worstLevel token (0 + j))
      (show top ∈ range (V.size - 1 + 1) from mem_range.mpr (by omega))
    refine Nat.le_trans ?_ hle
    unfold worstLevel
    rw [Nat.zero_add, if_neg fun h => hother (by rw [h]), if_neg hother]
  set w := tqAcBucketWeights deltaQ16 (worstLogits level token) (level 2)
    (fill V.model.w V.nbuckets fun _ => 0) V.size with hw
  have hcleared : ∀ b < V.nbuckets, (fill V.model.w V.nbuckets fun _ => 0) b = (0 : UInt64) :=
    fun b hb => fill_lt hb
  have hsum : ∑ b ∈ range V.nbuckets, (w b).toNat ≤ 2 ^ 41 :=
    bucketWeights_le deltaQ16 (worstLogits level token) V hcleared
  have hb := Vocab.div_lt_nbuckets ht
  have hzero : w (token / tqAcBucket) = 0 := by
    refine bucketWeights_zero (hcleared _ hb) V.size fun k _ hk => ?_
    refine weight_below hL (Nat.le_refl 2) ?_
    unfold worstLevel
    rw [if_pos hk]
    split <;> decide
  obtain ⟨b, hbn, hbpos⟩ : ∃ b < V.nbuckets, 0 < (w b).toNat := by
    have htotal : ∑ b ∈ range V.nbuckets, (w b).toNat = _ :=
      bucketWeights_sum deltaQ16 (worstLogits level token) hcleared V.size
        (fun k hk => Vocab.div_lt_nbuckets hk) V.le
    have hweight : 0 < (tqAcExp2Q24 (deltaQ16 (worstLogits level token top)
        (level 2))).toUInt64.toNat := by
      have hlevel : worstLogits level token top = level 2 := by
        unfold worstLogits worstLevel
        rw [if_neg fun h => hother (by rw [h]), if_neg hother]
      rw [hlevel]
      exact weight_same hL (Nat.le_refl 2)
    have hle := single_le_sum (f := fun k =>
        (tqAcExp2Q24 (deltaQ16 (worstLogits level token k) (level 2))).toUInt64.toNat)
      (fun _ _ => Nat.zero_le _) (mem_range.mpr htop)
    by_contra hnone
    push Not at hnone
    have hall : ∑ b ∈ range V.nbuckets, (w b).toNat = 0 :=
      sum_eq_zero fun b hb => Nat.le_zero.mp (hnone b (mem_range.mp hb))
    rw [htotal] at hall
    rw [hall] at hle
    exact absurd hweight (Nat.not_lt_of_le hle)
  have hone := normalize_weightless V.model.bcnt hsum hb hbn hzero hbpos
  show (tqAcNormalize V.model.bcnt (tqAcBucketWeights deltaQ16 (worstLogits level token)
    (tqAcMax gt (worstLogits level token) 0 (V.size - 1)) (fill V.model.w V.nbuckets fun _ => 0)
    V.size) V.nbuckets (token / tqAcBucket)).toNat = 1
  rw [hmax, ← hw, hone]
  rfl

/-- **The token** keeps one count in its bucket. -/
theorem symbolSlot_freq_one {V : Vocab} {token : Nat} (ht : token < V.size)
    (hmany : tqAcBucketSize V.model (token / tqAcBucket) ≠ 1) :
    (symbolSlot gt deltaQ16 (worstLogits level token) V token ht).freq = 1 := by
  set b := token / tqAcBucket with hb
  set n := tqAcBucketSize V.model b with hn
  have hs : token % tqAcBucket < n := mod_lt_bucketSize V.model_for ht
  have hbase : ∀ i < n, (b * tqAcBucket + i) / tqAcBucket = b := fun i hi => by
    have hle := bucketSize_le V.model b
    unfold tqAcBucket at *
    omega
  have htoken : b * tqAcBucket + token % tqAcBucket = token := Nat.div_add_mod' token tqAcBucket
  -- another token of the bucket, on the middle level
  obtain ⟨top, htop, hother⟩ : ∃ top < n, top ≠ token % tqAcBucket := by
    rcases Nat.eq_zero_or_pos (token % tqAcBucket) with hz | hp
    · exact ⟨1, by omega, by omega⟩
    · exact ⟨0, by omega, by omega⟩
  have hmid : ∀ i < n, worstLevel token (b * tqAcBucket + i)
      = if i = token % tqAcBucket then 0 else 1 := fun i hi => by
    unfold worstLevel
    rw [hbase i hi, if_pos hb]
    refine if_congr ⟨fun h => ?_, fun h => ?_⟩ rfl rfl
    · omega
    · rw [h, htoken]
  have hmax : tqAcMax gt (worstLogits level token) (b * tqAcBucket) (n - 1) = level 1 := by
    have hlevel := tqAcMax_level hL (worstLevel_le token) (b * tqAcBucket) (n - 1)
    refine hlevel.trans (congrArg level ?_)
    refine Nat.le_antisymm (Finset.sup_le fun j hj => ?_) ?_
    · rw [hmid j (by have := mem_range.mp hj; omega)]
      split <;> decide
    · have hle := Finset.le_sup (f := fun j => worstLevel token (b * tqAcBucket + j))
        (show top ∈ range (n - 1 + 1) from mem_range.mpr (by omega))
      refine Nat.le_trans ?_ hle
      rw [hmid top htop, if_neg hother]
  have hweight : ∀ i < n, fill V.model.w n (fun i => (tqAcExp2Q24 (deltaQ16
      (worstLogits level token (b * tqAcBucket + i)) (level 1))).toUInt64) i
      = (tqAcExp2Q24 (deltaQ16 (level (if i = token % tqAcBucket then 0 else 1))
          (level 1))).toUInt64 := fun i hi => by
    rw [fill_lt hi, worstLogits, hmid i hi]
  have hone := normalize_weightless V.model.scnt
    (w := fill V.model.w n (fun i => (tqAcExp2Q24 (deltaQ16
      (worstLogits level token (b * tqAcBucket + i)) (level 1))).toUInt64)) (n := n)
        ?_ hs htop ?_ ?_
  · show (tqAcNormalize V.model.scnt (fill V.model.w n fun i => (tqAcExp2Q24 (deltaQ16
      (worstLogits level token (b * tqAcBucket + i))
      (tqAcMax gt (worstLogits level token) (b * tqAcBucket) (n - 1)))).toUInt64) n
      (token % tqAcBucket)).toNat = 1
    rw [hmax, hone]
    rfl
  · refine (sum_le_card_nsmul _ _ (2 ^ 25) fun k hk => ?_).trans ?_
    · rw [fill_lt (mem_range.mp hk)]
      exact toUInt64_exp2_le _
    · rw [card_range, Nat.nsmul_eq_mul]
      exact Nat.le_trans (Nat.mul_le_mul_right _ (bucketSize_le V.model b)) (by decide)
  · rw [hweight _ hs, if_pos rfl]
    exact weight_below hL (by decide) (by decide)
  · rw [hweight _ htop, if_neg hother]
    exact weight_same hL (by decide)

/-- **The bound is reached**, and the next token starts from the same width. -/
theorem codeToken_worst {s : Iv} (hw : s.width = fullWidth) {V : Vocab} {token : Nat}
    (ht : token < V.size) :
    (codeToken gt deltaQ16 (worstLogits level token) V s token ht).width = fullWidth ∧
      (codeToken gt deltaQ16 (worstLogits level token) V s token ht).digits
        = s.digits + tokenBytes V token := by
  have hb := Vocab.div_lt_nbuckets ht
  obtain ⟨hw₁, h₁⟩ := code_slot_worst hw _
    (bucketTable_tot gt deltaQ16 (worstLogits level token) V.model_for) hb
    fun hn => bucketSlot_freq_one hL ht hn
  obtain ⟨hw₂, h₂⟩ := code_slot_worst hw₁ _
    (symbolTable_tot gt deltaQ16 (worstLogits level token) V.model_for hb)
    (mod_lt_bucketSize V.model_for ht) fun hn => symbolSlot_freq_one hL ht hn
  refine ⟨hw₂, h₂.trans ?_⟩
  rw [h₁, Nat.add_assoc]
  rfl

end Levels

end TinyLlm
