/-
# `TinyLlm.Ac.Token` — one token is two symbols

A token is coded as a bucket of 128 and an offset in it, each by a table that
both ends rebuild from the logits.  `bucketTable` and `symbolTable` are those
tables; their slots depend on the vocabulary and the logits and not on the
scratch they were built over, so the encoder's and the decoder's agree
(`bucketTable_slot`, `symbolTable_slot`).

`codeToken` is the interval after a token.  `tqAcEncToken_at` and
`tqAcDecToken_at` are the two halves of the lockstep.
-/
import TinyLlm.Ac.Counts
import TinyLlm.Ac.Room

namespace TinyLlm

open IntervalCoding Finset

/-- A vocabulary that the tables have room for. -/
structure Vocab where
  size : Nat
  pos : 0 < size
  le : size ≤ tqAcMaxVocab

def Vocab.nbuckets (V : Vocab) : Nat := (V.size + tqAcBucket - 1) / tqAcBucket

namespace Vocab
variable (V : Vocab)

theorem nbuckets_pos : 0 < V.nbuckets := by
  have := V.pos
  unfold nbuckets tqAcBucket
  omega

theorem nbuckets_le : V.nbuckets ≤ tqAcMaxBuckets := by
  have := V.le
  unfold nbuckets tqAcMaxBuckets
  unfold tqAcMaxVocab tqAcMaxBuckets tqAcBucket at this
  unfold tqAcBucket
  omega

variable {V}

theorem div_lt_nbuckets {i : Nat} (hi : i < V.size) : i / tqAcBucket < V.nbuckets := by
  unfold nbuckets tqAcBucket
  omega

end Vocab

/-- A model set up for `V`, whatever its arrays hold. -/
structure TqAcModel.For (pm : TqAcModel) (V : Vocab) : Prop where
  vocab : pm.vocab = V.size
  nbuckets : pm.nbuckets = V.nbuckets

/-- `tq_ac_model_init` sets a model up, and only for such a vocabulary. -/
theorem tqAcModelInit_for (V : Vocab) :
    ∃ pm, tqAcModelInit V.size = .ok pm ∧ pm.For V := by
  have hpos := V.pos
  have hle := V.le
  refine ⟨_, if_neg (by omega), rfl, rfl⟩

section Tables
variable {F : Type} (gt : F → F → Bool) (deltaQ16 : F → F → Int)
variable {V : Vocab} {pm pm' : TqAcModel} (logits : Nat → F)

/-! ## Bucket weights -/

/-- What a bucket weighs does not depend on the scratch. -/
theorem bucketWeights_congr {max : F} {w w' : Nat → UInt64} {b : Nat} (h : w b = w' b) :
    ∀ i, tqAcBucketWeights deltaQ16 logits max w i b = tqAcBucketWeights deltaQ16 logits max w' i b
  | 0 => h
  | i + 1 => by
      have ih : tqAcBucketWeights deltaQ16 logits max w i b
          = tqAcBucketWeights deltaQ16 logits max w' i b := bucketWeights_congr h i
      rw [tqAcBucketWeights, tqAcBucketWeights, Function.update_apply, Function.update_apply]
      split
      · next heq => rw [← heq, ih]
      · exact ih

/-- The mass of the buckets is the sum of the weights of their symbols. -/
theorem bucketWeights_sum {max : F} {w : Nat → UInt64} {nb : Nat} (h : ∀ b < nb, w b = 0) :
    ∀ i, (∀ k < i, k / tqAcBucket < nb) → i ≤ 2 ^ 16 →
      ∑ b ∈ range nb, (tqAcBucketWeights deltaQ16 logits max w i b).toNat
        = ∑ k ∈ range i, (tqAcExp2Q24 (deltaQ16 (logits k) max)).toUInt64.toNat := by
  intro i
  induction i with
  | zero =>
      intro _ _
      exact sum_eq_zero fun b hb => by rw [tqAcBucketWeights, h b (mem_range.mp hb)]; rfl
  | succ i ih =>
      intro hb hi
      have ih := ih (fun k hk => hb k (Nat.lt_succ_of_lt hk)) (Nat.le_of_succ_le hi)
      have hbi := hb i (Nat.lt_succ_self i)
      rw [tqAcBucketWeights, sum_range_succ, ← ih]
      generalize hw : tqAcBucketWeights deltaQ16 logits max w i = w₁ at ih
      have hx := toUInt64_exp2_le (deltaQ16 (logits i) max)
      generalize (tqAcExp2Q24 (deltaQ16 (logits i) max)).toUInt64 = x at hx
      have hbound : ∑ b ∈ range nb, (w₁ b).toNat ≤ i * 2 ^ 25 := by
        rw [ih]
        exact (sum_le_card_nsmul _ _ _ fun k _ => toUInt64_exp2_le _).trans_eq (by simp)
      have hle : (w₁ (i / tqAcBucket)).toNat ≤ ∑ b ∈ range nb, (w₁ b).toNat :=
        single_le_sum (f := fun b => (w₁ b).toNat) (fun _ _ => Nat.zero_le _) (mem_range.mpr hbi)
      rw [← Tiling.sum_update_add hbi (fun b => (w₁ b).toNat)]
      refine sum_congr rfl fun b _ => ?_
      rw [Function.update_apply, Function.update_apply]
      split
      · rw [UInt64.toNat_add]
        exact Nat.mod_eq_of_lt (by omega)
      · rfl

theorem bucketWeights_le (V : Vocab) {max : F} {w : Nat → UInt64}
    (h : ∀ b < V.nbuckets, w b = 0) :
    ∑ b ∈ range V.nbuckets, (tqAcBucketWeights deltaQ16 logits max w V.size b).toNat ≤ 2 ^ 41 := by
  have hle : V.size ≤ 2 ^ 16 := V.le
  rw [bucketWeights_sum deltaQ16 logits h V.size (fun k hk => Vocab.div_lt_nbuckets hk) hle]
  refine (sum_le_card_nsmul _ _ _ fun k _ => toUInt64_exp2_le _).trans ?_
  rw [card_range, Nat.nsmul_eq_mul]
  exact Nat.mul_le_mul_right _ hle

/-! ## The two tables -/

/-- The bucket table that `tq_ac_bucket_counts` leaves in `pm`. -/
def bucketTable (h : pm.For V) : CountTable :=
  CountTable.normalize pm.bcnt
    (tqAcBucketWeights deltaQ16 logits (tqAcMax gt logits 0 (pm.vocab - 1))
      (fill pm.w pm.nbuckets fun _ => 0) pm.vocab) pm.nbuckets
    (h.nbuckets ▸ V.nbuckets_pos)
    (h.nbuckets ▸ Nat.le_trans V.nbuckets_le (by decide))
    (by
      rw [h.nbuckets, h.vocab]
      exact bucketWeights_le deltaQ16 logits V fun b hb => fill_lt hb)

theorem bucketCounts_for (h : pm.For V) : (tqAcBucketCounts gt deltaQ16 pm logits).For V :=
  ⟨h.vocab, h.nbuckets⟩

theorem symbolCounts_for (h : pm.For V) (b : Nat) :
    (tqAcSymbolCounts gt deltaQ16 pm logits b).For V :=
  ⟨h.vocab, h.nbuckets⟩

theorem bucketSize_pos (h : pm.For V) {b : Nat} (hb : b < V.nbuckets) :
    0 < tqAcBucketSize pm b := by
  unfold tqAcBucketSize
  unfold Vocab.nbuckets at hb
  rw [h.vocab]
  unfold tqAcBucket at hb ⊢
  omega

theorem bucketSize_le (pm : TqAcModel) (b : Nat) : tqAcBucketSize pm b ≤ 2 ^ 7 :=
  Nat.min_le_right _ _

/-- The table of one bucket's symbols that `tq_ac_symbol_counts` leaves in `pm`. -/
def symbolTable (h : pm.For V) (b : Nat) (hb : b < V.nbuckets) : CountTable :=
  CountTable.normalize pm.scnt
    (fill pm.w (tqAcBucketSize pm b) fun i =>
      (tqAcExp2Q24 (deltaQ16 (logits (b * tqAcBucket + i))
        (tqAcMax gt logits (b * tqAcBucket) (tqAcBucketSize pm b - 1)))).toUInt64)
    (tqAcBucketSize pm b) (bucketSize_pos h hb)
    (Nat.le_trans (bucketSize_le pm b) (by decide))
    (by
      rw [sum_congr rfl fun i hi => by rw [fill_lt (mem_range.mp hi)]]
      refine (sum_le_card_nsmul _ _ _ fun k _ => toUInt64_exp2_le _).trans ?_
      rw [card_range, Nat.nsmul_eq_mul]
      exact Nat.le_trans (Nat.mul_le_mul_right _ (bucketSize_le pm b)) (by decide))

@[simp] theorem bucketTable_cnt (h : pm.For V) :
    (bucketTable gt deltaQ16 logits h).cnt = (tqAcBucketCounts gt deltaQ16 pm logits).bcnt := rfl

@[simp] theorem bucketTable_n (h : pm.For V) :
    (bucketTable gt deltaQ16 logits h).n = pm.nbuckets := rfl

@[simp] theorem symbolTable_cnt (h : pm.For V) (b : Nat) (hb : b < V.nbuckets) :
    (symbolTable gt deltaQ16 logits h b hb).cnt
      = (tqAcSymbolCounts gt deltaQ16 pm logits b).scnt := rfl

@[simp] theorem symbolTable_n (h : pm.For V) (b : Nat) (hb : b < V.nbuckets) :
    (symbolTable gt deltaQ16 logits h b hb).n = tqAcBucketSize pm b := rfl

theorem bucketTable_tot (h : pm.For V) : (bucketTable gt deltaQ16 logits h).tot = tqAcTot :=
  CountTable.normalize_tot _ _ _

theorem symbolTable_tot (h : pm.For V) {b : Nat} (hb : b < V.nbuckets) :
    (symbolTable gt deltaQ16 logits h b hb).tot = tqAcTot :=
  CountTable.normalize_tot _ _ _

/-- Both ends compute the same bucket slots. -/
theorem bucketTable_slot (h : pm.For V) (h' : pm'.For V) {i : Nat}
    (hi : i < (bucketTable gt deltaQ16 logits h).n)
    (hi' : i < (bucketTable gt deltaQ16 logits h').n) :
    (bucketTable gt deltaQ16 logits h).slot i hi =
      (bucketTable gt deltaQ16 logits h').slot i hi' := by
  have hn : pm.nbuckets = pm'.nbuckets := h.nbuckets.trans h'.nbuckets.symm
  refine CountTable.slot_congr hn ?_ hi hi'
  show ∀ k < pm.nbuckets, tqAcNormalize pm.bcnt _ pm.nbuckets k =
    tqAcNormalize pm'.bcnt _ pm'.nbuckets k
  rw [← hn, h.vocab, h'.vocab]
  refine normalize_congr fun k hk => bucketWeights_congr deltaQ16 logits ?_ V.size
  rw [fill_lt hk, fill_lt hk]

/-- And the same symbol slots. -/
theorem symbolTable_slot (h : pm.For V) (h' : pm'.For V) {b : Nat} (hb : b < V.nbuckets) {i : Nat}
    (hi : i < (symbolTable gt deltaQ16 logits h b hb).n)
    (hi' : i < (symbolTable gt deltaQ16 logits h' b hb).n) :
    (symbolTable gt deltaQ16 logits h b hb).slot i hi
      = (symbolTable gt deltaQ16 logits h' b hb).slot i hi' := by
  have hn : tqAcBucketSize pm b = tqAcBucketSize pm' b := by
    rw [tqAcBucketSize, tqAcBucketSize, h.vocab, h'.vocab]
  refine CountTable.slot_congr hn ?_ hi hi'
  show ∀ k < tqAcBucketSize pm b, tqAcNormalize pm.scnt _ (tqAcBucketSize pm b) k
    = tqAcNormalize pm'.scnt _ (tqAcBucketSize pm' b) k
  rw [← hn]
  exact normalize_congr fun k hk => by rw [fill_lt hk, fill_lt hk]

/-! ## One token -/

/-- A freshly initialised model, by which the tables are named. -/
def Vocab.model (V : Vocab) : TqAcModel where
  vocab := V.size
  nbuckets := V.nbuckets
  bucket := -1
  bcnt _ := 0
  scnt _ := 0
  w _ := 0

theorem Vocab.model_for (V : Vocab) : V.model.For V := ⟨rfl, rfl⟩

theorem mod_lt_bucketSize (h : pm.For V) {token : Nat} (ht : token < V.size) :
    token % tqAcBucket < tqAcBucketSize pm (token / tqAcBucket) := by
  rw [tqAcBucketSize, h.vocab]
  unfold tqAcBucket
  omega

/-- The slot of a token's bucket. -/
def bucketSlot (V : Vocab) (token : Nat) (ht : token < V.size) : Slot :=
  (bucketTable gt deltaQ16 logits V.model_for).slot (token / tqAcBucket) (Vocab.div_lt_nbuckets ht)

/-- The slot of a token in its bucket. -/
def symbolSlot (V : Vocab) (token : Nat) (ht : token < V.size) : Slot :=
  (symbolTable gt deltaQ16 logits V.model_for (token / tqAcBucket) (Vocab.div_lt_nbuckets ht)).slot
    (token % tqAcBucket) (mod_lt_bucketSize V.model_for ht)

/-- The interval after a token. -/
def codeToken (V : Vocab) (s : Iv) (token : Nat) (ht : token < V.size) : Iv :=
  (s.code 256 (2 ^ 24) 3 (bucketSlot gt deltaQ16 logits V token ht)).code 256 (2 ^ 24) 3
    (symbolSlot gt deltaQ16 logits V token ht)

/-- **Encoding a token** narrows the interval by it and takes six bytes at most. -/
theorem tqAcEncToken_at {e : TqAcEnc} {s : Iv} (he : e.At s) (h : pm.For V) {token : Nat}
    (ht : token < V.size) :
    ∃ e' pm', tqAcEncToken gt deltaQ16 e pm logits token = some (.ok, e', pm') ∧ pm'.For V ∧
      e'.At (codeToken gt deltaQ16 logits V s token ht) ∧ ∀ n, e.Room (6 + n) → e'.Room n := by
  have hb := Vocab.div_lt_nbuckets ht
  have hbn : token / tqAcBucket < (bucketTable gt deltaQ16 logits h).n :=
    Nat.lt_of_lt_of_eq hb h.nbuckets.symm
  have hpm₁ := bucketCounts_for gt deltaQ16 logits h
  have hsn : token % tqAcBucket < (symbolTable gt deltaQ16 logits hpm₁ (token / tqAcBucket) hb).n :=
    mod_lt_bucketSize hpm₁ ht
  obtain ⟨e₁, he₁, hat₁, -⟩ := (bucketTable gt deltaQ16 logits h).enc_step he hbn
  rw [bucketTable_slot gt deltaQ16 logits h V.model_for hbn hb] at hat₁
  obtain ⟨e₂, he₂, hat₂, -⟩ :=
    (symbolTable gt deltaQ16 logits hpm₁ (token / tqAcBucket) hb).enc_step hat₁ hsn
  rw [symbolTable_slot gt deltaQ16 logits hpm₁ V.model_for hb hsn
    (mod_lt_bucketSize V.model_for ht)] at hat₂
  rw [bucketTable_tot, bucketTable_cnt] at he₁
  rw [symbolTable_tot, symbolTable_cnt] at he₂
  refine ⟨e₂, tqAcSymbolCounts gt deltaQ16 (tqAcBucketCounts gt deltaQ16 pm logits) logits
    (token / tqAcBucket), ?_, symbolCounts_for gt deltaQ16 logits hpm₁ _, hat₂, ?_⟩
  · have hrange : ¬ ((token : Int) < 0 ∨ (token : Int) ≥ pm.vocab) := by
      rw [h.vocab]
      omega
    simp only [tqAcEncToken, if_neg hrange, Int.toNat_natCast, he₁, he₂, Option.bind_eq_bind,
      Option.bind_some]
  · intro n hroom
    have hroom₁ : e₁.Room (3 + n) := tqAcEncSym_room (hroom.mono (by omega)) he₁
    exact tqAcEncSym_room hroom₁ he₂

/-- **Decoding a token** finds it wherever the message lies in its interval. -/
theorem tqAcDecToken_at {d : TqAcDec} {s : Iv} (hd : d.At s) (h : pm.For V) {token : Nat}
    (ht : token < V.size)
    (hin : (codeToken gt deltaQ16 logits V s token ht).Contains 256 (digitsOf d.buf)) :
    ∃ d' pm', tqAcDecToken gt deltaQ16 d pm logits = some (.ok token, d', pm') ∧ pm'.For V ∧
      d'.At (codeToken gt deltaQ16 logits V s token ht) ∧ d'.buf = d.buf := by
  have hb := Vocab.div_lt_nbuckets ht
  have hbn : token / tqAcBucket < (bucketTable gt deltaQ16 logits h).n :=
    Nat.lt_of_lt_of_eq hb h.nbuckets.symm
  have hpm₁ := bucketCounts_for gt deltaQ16 logits h
  have hsn : token % tqAcBucket < (symbolTable gt deltaQ16 logits hpm₁ (token / tqAcBucket) hb).n :=
    mod_lt_bucketSize hpm₁ ht
  have hslot₁ := bucketTable_slot gt deltaQ16 logits h V.model_for hbn hb
  have hslot₂ := symbolTable_slot gt deltaQ16 logits hpm₁ V.model_for hb hsn
    (mod_lt_bucketSize V.model_for ht)
  have hin₁ := Iv.contains_of_narrow (Iv.contains_of_code (digitsOf_lt d.buf) hin)
  obtain ⟨target, d₁, d₂, htarget, hfind, hupdate, hat₂, hbuf₂⟩ :=
    (bucketTable gt deltaQ16 logits h).dec_step hd hbn (by rw [hslot₁]; exact hin₁)
  rw [hslot₁] at hat₂
  obtain ⟨target', d₃, d₄, htarget', hfind', hupdate', hat₄, hbuf₄⟩ :=
    (symbolTable gt deltaQ16 logits hpm₁ (token / tqAcBucket) hb).dec_step hat₂ hsn
      (by rw [hslot₂, hbuf₂]; exact hin)
  rw [hslot₂] at hat₄
  rw [bucketTable_tot] at htarget
  rw [bucketTable_cnt, bucketTable_n] at hfind
  rw [bucketTable_cnt] at hupdate
  rw [symbolTable_tot] at htarget'
  rw [symbolTable_cnt, symbolTable_n] at hfind'
  rw [symbolTable_cnt] at hupdate'
  refine ⟨d₄, tqAcSymbolCounts gt deltaQ16 (tqAcBucketCounts gt deltaQ16 pm logits) logits
    (token / tqAcBucket), ?_, symbolCounts_for gt deltaQ16 logits hpm₁ _, hat₄,
    hbuf₄.trans hbuf₂⟩
  have htoken : token / tqAcBucket * tqAcBucket + token % tqAcBucket = token :=
    Nat.div_add_mod' token tqAcBucket
  have hrange : token < pm.vocab := h.vocab ▸ ht
  have hnb : (tqAcBucketCounts gt deltaQ16 pm logits).nbuckets = pm.nbuckets := rfl
  have hsize : tqAcBucketSize (tqAcSymbolCounts gt deltaQ16
      (tqAcBucketCounts gt deltaQ16 pm logits) logits (token / tqAcBucket)) (token / tqAcBucket)
      = tqAcBucketSize (tqAcBucketCounts gt deltaQ16 pm logits) (token / tqAcBucket) := rfl
  simp only [tqAcDecToken, Option.bind_eq_bind, htarget, Option.bind_some, hnb, hfind, hupdate,
    htarget', hsize, hfind', hupdate', htoken, if_pos hrange]

end Tables

end TinyLlm
