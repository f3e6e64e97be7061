/-
# `TinyLlm.Ac.Safety` — decoding bytes that no encoder wrote

The decoder has no way to refuse a message.  Whatever the bytes are, `range`
alone decides whether it is safe: between symbols it is at least `2 ^ 24`, so
`range / tot` is not zero, the target is below the total and therefore in a
slot, and what the update subtracts is at most the target times `r`, which is
at most `code`.  Nothing is said of `code` itself, which may well exceed the
range, and which loses its high byte on a shift when it does.

The calls are written once, over `DecOps`: `plain` is the code, and `checked`
stops where the code would be wrong to go on.
-/
import TinyLlm.Ac.Token

namespace TinyLlm

open Loop Finset

/-- The three calls by which a symbol is decoded. -/
structure DecOps where
  target : TqAcDec → UInt32 → Option (UInt32 × TqAcDec)
  find : (Nat → UInt32) → Nat → UInt32 → Option (Nat × UInt32)
  update : TqAcDec → UInt32 → UInt32 → Option TqAcDec

namespace DecOps

/-- The calls as the code makes them. -/
def plain : DecOps where
  target := tqAcDecTarget
  find cnt n target := some (tqAcFind cnt n target)
  update := tqAcDecUpdate

/-- The same calls, refused on a range below the floor, on an index outside
the table, and on a product that wraps or exceeds `code`. -/
def checked : DecOps where
  target d tot := if 2 ^ 24 ≤ d.range.toNat then tqAcDecTarget d tot else none
  find cnt n target :=
    if (tqAcFind cnt n target).1 < n then some (tqAcFind cnt n target) else none
  update d cum freq :=
    if cum.toNat * d.r.toNat < 2 ^ 32 ∧ cum.toNat * d.r.toNat ≤ d.code.toNat then
      tqAcDecUpdate d cum freq
    else none

variable (O : DecOps)

/-- Target, lookup, update. -/
def symbol (d : TqAcDec) (cnt : Nat → UInt32) (n : Nat) : Option (Nat × TqAcDec) := do
  let (target, d) ← O.target d tqAcTot
  let (i, cum) ← O.find cnt n target
  let d ← O.update d cum (cnt i)
  some (i, d)

/-- `tq_ac_dec_token`. -/
def token {F : Type} (gt : F → F → Bool) (deltaQ16 : F → F → Int) (d : TqAcDec) (pm : TqAcModel)
    (logits : Nat → F) : Option (Except TqStatus Nat × TqAcDec × TqAcModel) := do
  let pm₁ := tqAcBucketCounts gt deltaQ16 pm logits
  let (b, d) ← O.symbol d pm₁.bcnt pm₁.nbuckets
  let pm₂ := tqAcSymbolCounts gt deltaQ16 pm₁ logits b
  let (s, d) ← O.symbol d pm₂.scnt (tqAcBucketSize pm₂ b)
  let token := b * tqAcBucket + s
  some (if token < pm.vocab then .ok token else .error .errTruncated, d, pm₂)

end DecOps

/-- The plain calls are the code. -/
theorem plain_token {F : Type} (gt : F → F → Bool) (deltaQ16 : F → F → Int) (d : TqAcDec)
    (pm : TqAcModel) (logits : Nat → F) :
    DecOps.plain.token gt deltaQ16 d pm logits = tqAcDecToken gt deltaQ16 d pm logits := by
  unfold DecOps.token DecOps.symbol DecOps.plain tqAcDecToken
  simp only [Option.bind_eq_bind, Option.bind_some, Option.bind_assoc]

/-! ## One symbol -/

/-- The renormalising loop ends above the floor, whatever it shifts in. -/
theorem tqAcDecShift_range : ∀ (n : Nat) {d : TqAcDec}, 2 ^ 24 ≤ d.range.toNat * 256 ^ n →
    ∃ d', whileFuel (fun d => decide (d.range < tqAcTop)) tqAcDecShift n d = some d' ∧
      2 ^ 24 ≤ d'.range.toNat := by
  intro n
  induction n with
  | zero =>
      intro d hn
      have hge : ¬ d.range < tqAcTop := by
        rw [UInt32.lt_iff_toNat_lt]
        simpa [tqAcTop] using hn
      exact ⟨d, whileFuel_done (by simpa using hge) 0, by simpa using hn⟩
  | succ n ih =>
      intro d hn
      by_cases hlt : d.range < tqAcTop
      · rw [whileFuel_step (by simpa using hlt)]
        refine ih (d := tqAcDecShift d) ?_
        have hr : (tqAcDecShift d).range.toNat = d.range.toNat * 256 := range_shift hlt
        rw [hr, Nat.mul_assoc, ← pow_succ']
        exact hn
      · refine ⟨d, whileFuel_done (by simpa using hlt) _, Nat.le_of_not_lt fun h => ?_⟩
        exact hlt (UInt32.lt_iff_toNat_lt.mpr h)

/-- The target is below the total, and `r` times it is at most `code`. -/
theorem tqAcDecTarget_safe {d : TqAcDec} (h : 2 ^ 24 ≤ d.range.toNat) :
    ∃ target r, tqAcDecTarget d tqAcTot = some (target, { d with r := r }) ∧
      target.toNat < 2 ^ 16 ∧ target.toNat * r.toNat ≤ d.code.toNat ∧
      r.toNat = d.range.toNat / 2 ^ 16 := by
  have htot := toNat_tqAcTot
  have hr : (d.range / tqAcTot).toNat = d.range.toNat / 2 ^ 16 := by
    rw [UInt32.toNat_div, htot]
  have hrzero : d.range / tqAcTot ≠ 0 := fun hz => by
    have hzero : 0 = d.range.toNat / 2 ^ 16 := by rw [← hr, hz]; rfl
    omega
  have hcode : (d.code / (d.range / tqAcTot)).toNat * (d.range / tqAcTot).toNat ≤ d.code.toNat := by
    rw [UInt32.toNat_div]
    exact Nat.div_mul_le_self _ _
  refine ⟨_, d.range / tqAcTot, by rw [tqAcDecTarget, if_neg (by decide), if_neg hrzero],
    ?_, ?_, hr⟩
  · split
    · decide
    · next hlt =>
        rw [ge_iff_le, UInt32.le_iff_toNat_le, htot] at hlt
        exact Nat.lt_of_not_le hlt
  · split
    · next hge =>
        rw [ge_iff_le, UInt32.le_iff_toNat_le, htot] at hge
        have hpred : (tqAcTot - 1).toNat ≤ (d.code / (d.range / tqAcTot)).toNat :=
          Nat.le_trans (show _ ≤ 2 ^ 16 by decide) hge
        exact (Nat.mul_le_mul_right _ hpred).trans hcode
    · exact hcode

/-- The update subtracts no more than there is, and leaves a range above the floor. -/
theorem tqAcDecUpdate_safe {d : TqAcDec} {range : Nat} {cum freq : UInt32}
    (hr : d.r.toNat = range / 2 ^ 16) (hrange : 2 ^ 24 ≤ range) (hlt : range < 2 ^ 32)
    (hcode : cum.toNat * d.r.toNat ≤ d.code.toNat) (hpos : 0 < freq.toNat)
    (hfreq : freq.toNat ≤ 2 ^ 16) :
    ∃ d', DecOps.checked.update d cum freq = some d' ∧ tqAcDecUpdate d cum freq = some d' ∧
      2 ^ 24 ≤ d'.range.toNat := by
  have hwrap : cum.toNat * d.r.toNat < 2 ^ 32 := Nat.lt_of_le_of_lt hcode d.code.toNat_lt
  have hmul : d.r.toNat * freq.toNat ≤ range := by
    calc d.r.toNat * freq.toNat ≤ range / 2 ^ 16 * 2 ^ 16 := by
          rw [hr]
          exact Nat.mul_le_mul_left _ hfreq
      _ ≤ range := Nat.div_mul_le_self _ _
  have hnew : (d.r * freq).toNat = d.r.toNat * freq.toNat := by
    rw [UInt32.toNat_mul]
    exact Nat.mod_eq_of_lt (by omega)
  have hfloor : 2 ^ 24 ≤ (d.r * freq).toNat * 256 ^ 3 := by
    have hge : 2 ^ 8 ≤ d.r.toNat * freq.toNat := by
      calc 2 ^ 8 ≤ d.r.toNat * 1 := by rw [hr]; omega
        _ ≤ d.r.toNat * freq.toNat := Nat.mul_le_mul_left _ hpos
    omega
  obtain ⟨d', hd', hfl⟩ := tqAcDecShift_range 3
    (d := { d with code := d.code - cum * d.r, range := d.r * freq }) hfloor
  exact ⟨d', (if_pos ⟨hwrap, hcode⟩).trans hd', hd', hfl⟩

/-- **One symbol** of a table that tiles the total is decoded safely. -/
theorem symbol_safe {d : TqAcDec} (h : 2 ^ 24 ≤ d.range.toNat) (T : CountTable)
    (htot : T.tot = tqAcTot) :
    ∃ i d', DecOps.checked.symbol d T.cnt T.n = some (i, d') ∧
      DecOps.plain.symbol d T.cnt T.n = some (i, d') ∧ i < T.n ∧ 2 ^ 24 ≤ d'.range.toNat := by
  have hsum : ∑ k ∈ range T.n, (T.cnt k).toNat = 2 ^ 16 := by
    rw [← T.toNat_tot, htot]
    decide
  obtain ⟨target, r, htarget, hlt, hcode, hr⟩ := tqAcDecTarget_safe h
  obtain ⟨i, hi, hlo, hhi⟩ := Tiling.exists_slot (fun k => (T.cnt k).toNat) T.n
    (Nat.lt_of_lt_of_eq hlt hsum.symm)
  have hfind : tqAcFind T.cnt T.n target = (i, tqAcCum T.cnt i) := T.find_eq hi hlo hhi
  have hcum : (tqAcCum T.cnt i).toNat * r.toNat ≤ d.code.toNat := by
    rw [T.toNat_cum hi.le]
    exact (Nat.mul_le_mul_right _ hlo).trans hcode
  have hfreq : (T.cnt i).toNat ≤ 2 ^ 16 :=
    (Nat.le_add_left _ _).trans ((T.slot i hi).fits.trans T.total_le)
  obtain ⟨d', hchecked, hplain, hfl⟩ := tqAcDecUpdate_safe (d := { d with r := r }) hr h
    d.range.toNat_lt hcum (T.cnt_pos i hi) hfreq
  have hct : DecOps.checked.target d tqAcTot = some (target, { d with r := r }) :=
    (if_pos h).trans htarget
  have hcf : DecOps.checked.find T.cnt T.n target = some (i, tqAcCum T.cnt i) := by
    unfold DecOps.checked
    simp only [hfind, if_pos hi]
  refine ⟨i, d', ?_, ?_, hi, hfl⟩
  · simp only [DecOps.symbol, Option.bind_eq_bind, hct, hcf, hchecked, Option.bind_some]
  · simp only [DecOps.symbol, DecOps.plain, Option.bind_eq_bind, htarget, hfind, hplain,
      Option.bind_some]

/-! ## One token -/

section Token
variable {F : Type} (gt : F → F → Bool) (deltaQ16 : F → F → Int)
variable {V : Vocab} {pm : TqAcModel} (logits : Nat → F)

/-- A token is its two symbols. -/
theorem DecOps.token_eq (O : DecOps) {d d₁ d₂ : TqAcDec} {b s : Nat}
    (hb : O.symbol d (tqAcBucketCounts gt deltaQ16 pm logits).bcnt pm.nbuckets = some (b, d₁))
    (hs : O.symbol d₁
      (tqAcSymbolCounts gt deltaQ16 (tqAcBucketCounts gt deltaQ16 pm logits) logits b).scnt
      (tqAcBucketSize pm b) = some (s, d₂))
    (ht : b * tqAcBucket + s < pm.vocab) :
    O.token gt deltaQ16 d pm logits = some (.ok (b * tqAcBucket + s), d₂,
      tqAcSymbolCounts gt deltaQ16 (tqAcBucketCounts gt deltaQ16 pm logits) logits b) := by
  have hnb : (tqAcBucketCounts gt deltaQ16 pm logits).nbuckets = pm.nbuckets := rfl
  have hsize : tqAcBucketSize
      (tqAcSymbolCounts gt deltaQ16 (tqAcBucketCounts gt deltaQ16 pm logits) logits b) b
      = tqAcBucketSize pm b := rfl
  simp only [DecOps.token, Option.bind_eq_bind, hnb, hb, Option.bind_some, hsize, hs, if_pos ht]

/-- **A token** is decoded safely, and is one of the vocabulary. -/
theorem token_safe {d : TqAcDec} (h : 2 ^ 24 ≤ d.range.toNat) (hpm : pm.For V) :
    ∃ token d' pm', DecOps.checked.token gt deltaQ16 d pm logits = some (.ok token, d', pm') ∧
      tqAcDecToken gt deltaQ16 d pm logits = some (.ok token, d', pm') ∧ token < V.size ∧
      pm'.For V ∧ 2 ^ 24 ≤ d'.range.toNat := by
  have hpm₁ := bucketCounts_for gt deltaQ16 logits hpm
  obtain ⟨b, d₁, hcb, hpb, hb, hd₁⟩ := symbol_safe h (bucketTable gt deltaQ16 logits hpm)
    (bucketTable_tot gt deltaQ16 logits hpm)
  have hbn : b < V.nbuckets := hpm.nbuckets ▸ hb
  obtain ⟨s, d₂, hcs, hps, hs, hd₂⟩ := symbol_safe hd₁
    (symbolTable gt deltaQ16 logits hpm₁ b hbn) (symbolTable_tot gt deltaQ16 logits hpm₁ hbn)
  have hsize : s < min (pm.vocab - b * tqAcBucket) tqAcBucket := hs
  have htoken : b * tqAcBucket + s < pm.vocab := by omega
  refine ⟨b * tqAcBucket + s, d₂,
    tqAcSymbolCounts gt deltaQ16 (tqAcBucketCounts gt deltaQ16 pm logits) logits b, ?_, ?_,
    hpm.vocab ▸ htoken, symbolCounts_for gt deltaQ16 logits hpm₁ b, hd₂⟩
  · exact DecOps.checked.token_eq gt deltaQ16 logits hcb hcs htoken
  · exact (plain_token gt deltaQ16 d pm logits).symm.trans
      (DecOps.plain.token_eq gt deltaQ16 logits hpb hps htoken)

end Token

end TinyLlm
