/-
# `TinyLlm.Sample.Draw` — a draw on any logits and any scratch

`tq_sample` compares and sorts floats, and the floats may be anything: a NaN is
below nothing and above nothing, so no order stands behind `O.lt` here and
nothing is sorted.  What remains holds of every comparison.  No access leaves
the arrays, the token is one of the vocabulary, and the scratch, which the
callers leave uninitialised, never counts: two samplers that differ in nothing
else draw the same tokens (`tqSampleAll_alike`).

The sort is followed on two arrays at once.  They are `Alike` where they count,
and the same permutation takes both where they go.
-/
import TinyLlm.Sample.Sampler
import TinyLlm.Ac.Delta

namespace TinyLlm

open Loop Heap

/-! ## Sorting by any comparison -/

namespace Candidates

section Alike
variable {P I : Type} {lt : P → P → Bool} {n : Nat} {s t s' t' : Candidates P I}

/-- The first `n` entries are the same. -/
def Alike (n : Nat) (s t : Candidates P I) : Prop :=
  ∀ i < n, s.prob i = t.prob i ∧ s.idx i = t.idx i

/-- One permutation of the first `n` entries takes both where they are. -/
def Moved (n : Nat) (s t s' t' : Candidates P I) : Prop :=
  ∃ σ, FixesFrom n σ ∧ Rearranged s σ s' ∧ Rearranged t σ t'

theorem Moved.refl (n : Nat) (s t : Candidates P I) : Moved n s t s t :=
  ⟨Equiv.refl Nat, FixesFrom.refl n, Rearranged.refl s, Rearranged.refl t⟩

theorem Moved.trans {s'' t'' : Candidates P I} (h : Moved n s t s' t')
    (h' : Moved n s' t' s'' t'') :
    Moved n s t s'' t'' := by
  obtain ⟨σ, hfix, hs, ht⟩ := h
  obtain ⟨τ, hfix', hs', ht'⟩ := h'
  exact ⟨τ.trans σ, hfix'.trans hfix, hs.trans hs', ht.trans ht'⟩

theorem Moved.mono {m : Nat} (h : Moved m s t s' t') (hm : m ≤ n) : Moved n s t s' t' := by
  obtain ⟨σ, hfix, hs, ht⟩ := h
  exact ⟨σ, hfix.mono hm, hs, ht⟩

theorem Moved.alike (h : Moved n s t s' t') (hst : Alike n s t) : Alike n s' t' := by
  obtain ⟨σ, hfix, hs, ht⟩ := h
  intro i hi
  rw [hs.prob, ht.prob, hs.idx, ht.idx]
  exact hst (σ i) (hfix.lt hi)

/-- What is there after a move was there before. -/
theorem Moved.idx_mem (h : Moved n s t s' t') {i : Nat} (hi : i < n) :
    ∃ j < n, s'.idx i = s.idx j := by
  obtain ⟨σ, hfix, hs, -⟩ := h
  exact ⟨σ i, hfix.lt hi, by rw [hs.idx]; rfl⟩

theorem swap_moved {i j : Nat} (hi : i < n) (hj : j < n) (s t : Candidates P I) :
    ∃ s' t', s.swap n i j = some s' ∧ t.swap n i j = some t' ∧ Moved n s t s' t' := by
  obtain ⟨s', hs, hs'⟩ := s.swap_eq hi hj
  obtain ⟨t', ht, ht'⟩ := t.swap_eq hi hj
  exact ⟨s', t', hs, ht, Equiv.swap i j, FixesFrom.swap hi hj, hs', ht'⟩

variable (lt)

theorem larger_alike (h : Alike n s t) {big : Nat} (hbig : big < n) (child : Nat) :
    ∃ best < n, s.larger lt n big child = some best ∧ t.larger lt n big child = some best ∧
      (best = big ∨ best = child) := by
  unfold larger
  by_cases hchild : child < n
  · rw [if_pos hchild, if_pos hchild, readAt_eq hchild, readAt_eq hbig, readAt_eq hchild,
      readAt_eq hbig, (h child hchild).1, (h big hbig).1]
    by_cases hlt : lt (t.prob big) (t.prob child) = true
    · exact ⟨child, hchild, by simp [hlt], by simp [hlt], .inr rfl⟩
    · exact ⟨big, hbig, by simp [hlt], by simp [hlt], .inl rfl⟩
  · rw [if_neg hchild, if_neg hchild]
    exact ⟨big, hbig, rfl, rfl, .inl rfl⟩

/-- **A sift** ends, and moves both arrays alike: its root only goes down. -/
theorem siftLoop_alike : ∀ {fuel root : Nat} {s t : Candidates P I}, root < n →
      n ≤ root + fuel → Alike n s t →
    ∃ s' t', siftLoop lt n fuel s root = some s' ∧ siftLoop lt n fuel t root = some t' ∧
      Moved n s t s' t'
  | 0, root, _, _, hroot, hfuel, _ => by omega
  | fuel + 1, root, s, t, hroot, hfuel, h => by
      obtain ⟨first, hfirst, hs₁, ht₁, hchild₁⟩ := larger_alike lt h hroot (2 * root + 1)
      obtain ⟨big, hbig, hs₂, ht₂, hchild₂⟩ := larger_alike lt h hfirst (2 * root + 1 + 1)
      unfold siftLoop
      simp only [hs₁, ht₁, hs₂, ht₂, Option.bind_eq_bind, Option.bind_some]
      by_cases hstay : big = root
      · rw [if_pos hstay, if_pos hstay]
        exact ⟨s, t, rfl, rfl, Moved.refl n s t⟩
      · rw [if_neg hstay, if_neg hstay]
        obtain ⟨s₁, t₁, hs, ht, hmoved⟩ := swap_moved hroot hbig s t
        obtain ⟨s₂, t₂, hs', ht', hmoved'⟩ :=
          siftLoop_alike hbig (show n ≤ big + fuel by omega) (hmoved.alike h)
        refine ⟨s₂, t₂, ?_, ?_, hmoved.trans hmoved'⟩
        · rw [hs]
          exact hs'
        · rw [ht]
          exact ht'

theorem popMax_alike {i : Nat} (hi : i + 1 < n) (h : Alike n s t) :
    ∃ s' t', popMax lt n (i + 1) s = some s' ∧ popMax lt n (i + 1) t = some t' ∧
      Moved n s t s' t' := by
  obtain ⟨s₁, t₁, hs, ht, hmoved⟩ := swap_moved (show 0 < n by omega) hi s t
  obtain ⟨s₂, t₂, hs', ht', hmoved'⟩ :=
    siftLoop_alike lt (Nat.succ_pos i) (Nat.le_add_left (i + 1) 0)
    fun j hj => hmoved.alike h j (hj.trans hi)
  refine ⟨s₂, t₂, ?_, ?_, hmoved.trans (hmoved'.mono hi.le)⟩
  · unfold popMax
    rw [hs]
    exact hs'
  · unfold popMax
    rw [ht]
    exact ht'

/-- **The sort** ends whatever the comparison is, and moves both alike. -/
theorem tqHeapsortDesc_alike (h : Alike n s t) :
    ∃ s' t', s.tqHeapsortDesc lt n = some s' ∧ t.tqHeapsortDesc lt n = some t' ∧
      Moved n s t s' t' := by
  obtain ⟨s₁, t₁, hs₁, ht₁, h₁⟩ := @forDownM_rel _ _ (fun _ a b => Moved n s t a b)
    (fun i s => s.tqSift lt i n) (fun i s => s.tqSift lt i n) (n / 2) s t (Moved.refl n s t)
    fun i hi a b hab => by
      obtain ⟨a', b', ha, hb, hmoved⟩ :=
        siftLoop_alike lt (show i < n by omega) (Nat.le_add_left n i) (hab.alike h)
      exact ⟨a', b', ha, hb, hab.trans hmoved⟩
  obtain ⟨s₂, t₂, hs₂, ht₂, h₂⟩ := @forDownM_rel _ _ (fun _ a b => Moved n s t a b)
    (fun i s => popMax lt n (i + 1) s) (fun i s => popMax lt n (i + 1) s) (n - 1) s₁ t₁ h₁
    fun i hi a b hab => by
      obtain ⟨a', b', ha, hb, hmoved⟩ := popMax_alike lt (show i + 1 < n by omega) (hab.alike h)
      exact ⟨a', b', ha, hb, hab.trans hmoved⟩
  obtain ⟨s₃, t₃, hs₃, ht₃, h₃⟩ := @forUpM_rel _ _ (fun _ a b => Moved n s t a b)
    (fun i s => s.swap n i (n - 1 - i)) (fun i s => s.swap n i (n - 1 - i)) (n / 2) s₂ t₂ h₂
    fun i hi a b hab => by
      obtain ⟨a', b', ha, hb, hmoved⟩ := swap_moved (show i < n by omega) (show n - 1 - i <
        n by omega) a b
      exact ⟨a', b', ha, hb, hab.trans hmoved⟩
  refine ⟨s₃, t₃, ?_, ?_, h₃⟩
  · unfold tqHeapsortDesc
    simp only [hs₁, hs₂, Option.bind_eq_bind, Option.bind_some]
    exact hs₃
  · unfold tqHeapsortDesc
    simp only [ht₁, ht₂, Option.bind_eq_bind, Option.bind_some]
    exact ht₃

end Alike

end Candidates

/-! ## The generator -/

/-- A word that is its own shift is zero. -/
theorem eq_zero_of_shiftRight {x : UInt64} {k : UInt64} (hk : 0 < k.toNat ∧ k.toNat < 64)
    (h : x ^^^ (x >>> k) = 0) :
    x = 0 := by
  have hx : x = x >>> k := UInt64.xor_eq_zero_iff.mp h
  have hnat := congrArg UInt64.toNat hx
  rw [UInt64.toNat_shiftRight, Nat.mod_eq_of_lt hk.2, Nat.shiftRight_eq_div_pow] at hnat
  rw [← UInt64.toNat_inj]
  refine Nat.eq_zero_of_not_pos fun hpos => ?_
  have hlt := Nat.div_lt_self hpos (Nat.one_lt_two_pow hk.1.ne')
  omega

theorem eq_zero_of_shiftLeft {x : UInt64} (h : x ^^^ (x <<< 25) = 0) : x = 0 := by
  have hx : x = x <<< 25 := UInt64.xor_eq_zero_iff.mp h
  have hnat := congrArg UInt64.toNat hx
  rw [UInt64.toNat_shiftLeft, Nat.shiftLeft_eq] at hnat
  have hk : (25 : UInt64).toNat % 64 = 25 := rfl
  rw [hk] at hnat
  -- an odd multiple of it is a multiple of the modulus
  have hself := Nat.mod_eq_of_lt x.toNat_lt
  have hdvd : 2 ^ 64 ∣ x.toNat * (2 ^ 25 - 1) := by
    rw [Nat.mul_sub, Nat.mul_one]
    exact Nat.dvd_of_mod_eq_zero (Nat.sub_mod_eq_zero_of_mod_eq (hnat.symm.trans hself.symm))
  have hcop : Nat.Coprime (2 ^ 64) (2 ^ 25 - 1) := Nat.Coprime.pow_left 64 (by decide)
  rw [← UInt64.toNat_inj]
  exact Nat.eq_zero_of_dvd_of_lt (hcop.dvd_of_dvd_mul_right hdvd) x.toNat_lt

/-- **The state is never zero**, from which it would not come back. -/
theorem tqRandU32_ne_zero {s : UInt64} (h : s ≠ 0) : (tqRandU32 s).2 ≠ 0 := by
  have hx₁ : s ^^^ (s >>> 12) ≠ 0 := fun h₁ => h (eq_zero_of_shiftRight (by decide) h₁)
  generalize hs₁ : s ^^^ (s >>> 12) = x₁ at hx₁
  have hx₂ : x₁ ^^^ (x₁ <<< 25) ≠ 0 := fun h₂ => hx₁ (eq_zero_of_shiftLeft h₂)
  generalize hs₂ : x₁ ^^^ (x₁ <<< 25) = x₂ at hx₂
  have hx₃ : x₂ ^^^ (x₂ >>> 27) ≠ 0 := fun h₃ => hx₂ (eq_zero_of_shiftRight (by decide) h₃)
  unfold tqRandU32
  dsimp only
  rw [hs₁, hs₂]
  exact hx₃

/-! ## A draw -/

section Draw
variable {F : Type} (O : FloatOps F)

theorem tqArgmax_lt (v : Nat → F) {n : Nat} (hn : 0 < n) : tqArgmax O v n < n := by
  refine Nat.lt_of_le_pred hn ?_
  exact forUp_inv (I := fun k best => best ≤ k) (Nat.le_refl 0) fun k _ best hbest => by
    split
    · exact Nat.le_refl _
    · exact hbest.trans (Nat.le_succ k)

theorem pickFrom_congr {p q : Nat → F} (r : F) :
    ∀ {left i : Nat} (cdf : F), (∀ j < i + left, p j = q j) →
    pickFrom O p r left i cdf = pickFrom O q r left i cdf
  | 0, _, _, _ => rfl
  | left + 1, i, cdf, h => by
      rw [pickFrom, pickFrom, h i (by omega)]
      rw [pickFrom_congr r (O.add cdf (q i)) fun j hj => h j (by omega)]

theorem pickFrom_lt {p : Nat → F} {r : F} :
    ∀ {left i j : Nat} {cdf : F}, pickFrom O p r left i cdf = some j →
    j < i + left
  | 0, _, _, _, h => by cases h
  | left + 1, i, j, cdf, h => by
      rw [pickFrom] at h
      split at h
      · cases h
        omega
      · have hlt := pickFrom_lt h
        omega

theorem cutFrom_congr {p q : Nat → F} (topp : F) :
    ∀ {left i : Nat} (cum : F), (∀ j < i + left, p j = q j) →
    cutFrom O p topp left i cum = cutFrom O q topp left i cum
  | 0, _, _, _ => rfl
  | left + 1, i, cum, h => by
      rw [cutFrom, cutFrom, h i (by omega)]
      rw [cutFrom_congr topp (O.add cum (q i)) fun j hj => h j (by omega)]

theorem cutFrom_lt {p : Nat → F} {topp : F} : ∀ {left i j : Nat} {cum : F},
    (cutFrom O p topp left i cum).1 = some j → j < i + left
  | 0, _, _, _, h => by cases h
  | left + 1, i, j, cum, h => by
      rw [cutFrom] at h
      split at h
      · cases h
        omega
      · have hlt := cutFrom_lt h
        omega

/-- **The survivors** are written over what was there, and name tokens. -/
theorem survivors_alike (cutoff : F) (n : Nat) (p : Nat → F) (s t : Candidates F Int) :
    (survivors O cutoff n p s).2 = (survivors O cutoff n p t).2 ∧ (survivors O cutoff n p s).2 ≤ n ∧
      Candidates.Alike (survivors O cutoff n p s).2 (survivors O cutoff n p s).1
      (survivors O cutoff n p t).1 ∧
      ∀ j < (survivors O cutoff n p s).2, ∃ i < n, (survivors O cutoff n p s).1.idx
        j = (i : Int) := by
  unfold survivors
  refine @forUp_rel _ _ (fun i a b => a.2 = b.2 ∧ a.2 ≤ i ∧ Candidates.Alike a.2 a.1 b.1 ∧
    ∀ j < a.2, ∃ i' < i, a.1.idx j = (i' : Int)) _ _ n (s, 0) (t, 0) ⟨rfl, Nat.le_refl 0, ?_, ?_⟩ ?_
  · exact fun j hj => absurd hj (Nat.not_lt_zero j)
  · exact fun j hj => absurd hj (Nat.not_lt_zero j)
  · rintro i hi ⟨a, k⟩ ⟨b, k'⟩ ⟨hk, hle, halike, hidx⟩
    cases hk
    dsimp only at hle halike hidx ⊢
    split
    · refine ⟨rfl, Nat.succ_le_succ hle, fun j hj => ?_, fun j hj => ?_⟩
      · rcases Nat.lt_succ_iff_lt_or_eq.mp hj with hj | rfl
        · dsimp only
          rw [Function.update_of_ne hj.ne, Function.update_of_ne hj.ne, Function.update_of_ne hj.ne,
            Function.update_of_ne hj.ne]
          exact halike j hj
        · dsimp only
          rw [Function.update_self, Function.update_self, Function.update_self,
            Function.update_self]
          exact ⟨rfl, rfl⟩
      · rcases Nat.lt_succ_iff_lt_or_eq.mp hj with hj | rfl
        · obtain ⟨i', hi', hval⟩ := hidx j hj
          dsimp only
          rw [Function.update_of_ne hj.ne]
          exact ⟨i', Nat.lt_succ_of_lt hi', hval⟩
        · dsimp only
          rw [Function.update_self]
          exact ⟨i, Nat.lt_succ_self i, rfl⟩
    · refine ⟨rfl, hle.trans (Nat.le_succ i), halike, fun j hj => ?_⟩
      obtain ⟨i', hi', hval⟩ := hidx j hj
      exact ⟨i', Nat.lt_succ_of_lt hi', hval⟩

/-- **The nucleus branch** answers with a token, whatever the scratch holds. -/
theorem tqNucleus_alike (topp : F) {n : Nat} (hn : 0 < n) (p : Nat → F) (s t : Candidates F Int)
    (rng : UInt64) (draw : F × UInt64) :
    ∃ token rng' s' t', tqNucleus O topp n p s rng draw = some (token, rng', s') ∧
      tqNucleus O topp n p t rng draw = some (token, rng', t') ∧ (0 ≤ token ∧ token < n) ∧
      (rng' = rng ∨ rng' = draw.2) := by
  obtain ⟨hk, hle, halike, hidx⟩ :=
    survivors_alike O (O.div (O.sub (O.ofInt 1) topp) (O.ofInt ((n : Int) - 1))) n p s t
  unfold tqNucleus
  dsimp only
  revert hk hle halike hidx
  generalize survivors O (O.div (O.sub (O.ofInt 1) topp) (O.ofInt ((n : Int) - 1))) n p s = a
  generalize survivors O (O.div (O.sub (O.ofInt 1) topp) (O.ofInt ((n : Int) - 1))) n p t = b
  obtain ⟨a, k⟩ := a
  obtain ⟨b, k'⟩ := b
  intro hk hle halike hidx
  dsimp only at hk hle halike hidx ⊢
  cases hk
  by_cases hnone : k = 0
  · rw [if_pos hnone, if_pos hnone]
    have hlt := tqArgmax_lt O p hn
    exact ⟨_, rng, a, b, rfl, rfl, ⟨Int.natCast_nonneg _, by exact_mod_cast hlt⟩, .inl rfl⟩
  · rw [if_neg hnone, if_neg hnone]
    obtain ⟨a', b', ha, hb, hmoved⟩ := Candidates.tqHeapsortDesc_alike O.lt halike
    have halike' := hmoved.alike halike
    have hprob : ∀ j < k, a'.prob j = b'.prob j := fun j hj => (halike' j hj).1
    simp only [ha, hb, Option.bind_eq_bind, Option.bind_some]
    rw [cutFrom_congr O topp (O.ofInt 0) fun j hj => hprob j (by omega)]
    generalize hcut : cutFrom O b'.prob topp k 0 (O.ofInt 0) = c
    have hlast : c.1.getD (k - 1) < k := by
      cases hc : c.1 with
      | none => exact Nat.sub_lt (Nat.pos_of_ne_zero hnone) Nat.one_pos
      | some j =>
          have hlt := cutFrom_lt O (hcut ▸ hc)
          rw [Nat.zero_add] at hlt
          exact hlt
    generalize c.1.getD (k - 1) = last at hlast
    rw [pickFrom_congr O (O.mul draw.1 c.2) (O.ofInt 0) fun j hj => hprob j (by omega)]
    generalize hpick : pickFrom O b'.prob (O.mul draw.1 c.2) (last + 1) 0 (O.ofInt 0) = pick
    have hchosen : pick.getD last < k := by
      cases hp : pick with
      | none => exact hlast
      | some j =>
          have hlt := pickFrom_lt O (hpick.trans hp)
          show j < k
          omega
    obtain ⟨j, hj, hval⟩ := hmoved.idx_mem hchosen
    obtain ⟨i, hi, htoken⟩ := hidx j hj
    refine ⟨_, draw.2, a', b', rfl, ?_, ?_, .inr rfl⟩
    · rw [(halike' _ hchosen).2]
    · rw [hval, htoken]
      omega

/-- Two samplers that differ in what their scratch holds. -/
structure TqSampler.Alike (s t : TqSampler F) : Prop where
  rng : s.rng = t.rng
  temperature : s.temperature = t.temperature
  topp : s.topp = t.topp
  vocabSize : s.vocabSize = t.vocabSize
  idx : s.idx.isSome = t.idx.isSome
  prob : s.prob.isSome = t.prob.isSome

theorem tqRandF32_ne_zero {s : UInt64} (h : s ≠ 0) : (tqRandF32 O s).2 ≠ 0 := tqRandU32_ne_zero h

/-- **A draw** gives a token, on any logits, and the same one from samplers that
are alike; its generator does not die. -/
theorem tqSample_alike {s t : TqSampler F} (h : s.Alike t) (hn : 0 < s.vocabSize)
    (logits : Nat → F) :
    ∃ token s' t' logits', tqSample O s logits = some (token, s', logits') ∧
      tqSample O t logits = some (token, t', logits') ∧ s'.Alike t' ∧
      (0 ≤ token ∧ token < s.vocabSize) ∧
      s'.vocabSize = s.vocabSize ∧ (s.rng ≠ 0 → s'.rng ≠ 0) := by
  obtain ⟨rng, temperature, topp, n, idx, prob⟩ := s
  obtain ⟨rng', temperature', topp', n', idx', prob'⟩ := t
  obtain ⟨rfl, rfl, rfl, rfl, hidx, hprob⟩ := h
  dsimp only at hidx hprob hn ⊢
  have hdraw : rng ≠ 0 → (tqRandF32 O rng).2 ≠ 0 := tqRandF32_ne_zero O
  unfold tqSample
  dsimp only
  by_cases hgreedy : O.le temperature (O.ofInt 0) = true
  · rw [if_pos hgreedy, if_pos hgreedy]
    have hlt := tqArgmax_lt O logits hn
    exact ⟨_, _, _, logits, rfl, rfl, ⟨rfl, rfl, rfl, rfl, hidx, hprob⟩,
      ⟨Int.natCast_nonneg _, by exact_mod_cast hlt⟩, rfl, id⟩
  · rw [if_neg hgreedy, if_neg hgreedy]
    generalize softmaxLogits O temperature n logits = p
    have hany : 0 ≤ (pickFrom O p (tqRandF32 O rng).1 n 0 (O.ofInt 0)).elim ((n : Int) - 1)
        (fun i => (i : Int)) ∧
        (pickFrom O p (tqRandF32 O rng).1 n 0 (O.ofInt 0)).elim ((n : Int) - 1)
        (fun i => (i : Int)) < n := by
      cases hpick : pickFrom O p (tqRandF32 O rng).1 n 0 (O.ofInt 0) with
      | none =>
          show 0 ≤ (n : Int) - 1 ∧ (n : Int) - 1 < n
          omega
      | some i =>
          have hlt := pickFrom_lt O hpick
          show 0 ≤ (i : Int) ∧ (i : Int) < n
          omega
    by_cases hall : (O.le topp (O.ofInt 0) || O.le (O.ofInt 1) topp) = true
    · rw [if_pos hall, if_pos hall]
      exact ⟨_, _, _, p, rfl, rfl, ⟨rfl, rfl, rfl, rfl, hidx, hprob⟩, hany, rfl, hdraw⟩
    · rw [if_neg hall, if_neg hall]
      rcases idx with _ | a <;> rcases idx' with _ | b <;> rcases prob with _ | c <;>
        rcases prob' with _ | d
      case some.some.some.some =>
        obtain ⟨token, rng', s', t', hs, ht, hrange, hrng⟩ :=
          tqNucleus_alike O topp hn p ⟨c, a⟩ ⟨d, b⟩ rng ((tqRandF32 O rng).1, (tqRandF32 O rng).2)
        simp only [hs, ht, Option.map_some]
        refine ⟨token, _, _, p, rfl, rfl, ⟨rfl, rfl, rfl, rfl, rfl, rfl⟩, hrange, rfl,
          fun hne => ?_⟩
        rcases hrng with rfl | rfl
        · exact hne
        · exact hdraw hne
      all_goals first
        | exact ⟨_, _, _, p, rfl, rfl, ⟨rfl, rfl, rfl, rfl, rfl, rfl⟩, hany, rfl, hdraw⟩
        | exact Bool.noConfusion hidx
        | exact Bool.noConfusion hprob

/-! ## Runs -/

/-- The tokens drawn from one after the other. -/
def tqSampleAll : TqSampler F → List (Nat → F) → Option (List Int × TqSampler F)
  | s, [] => some ([], s)
  | s, logits :: rest => do
      let (token, s, _) ← tqSample O s logits
      let (tokens, s) ← tqSampleAll s rest
      some (token :: tokens, s)

theorem tqSampleAll_alike : ∀ (all : List (Nat → F)) {s t : TqSampler F}, s.Alike t →
      0 < s.vocabSize →
    ∃ tokens s' t', tqSampleAll O s all = some (tokens, s') ∧ tqSampleAll O t all =
      some (tokens, t') ∧
      s'.Alike t' ∧ tokens.length = all.length ∧
        (∀ token ∈ tokens, 0 ≤ token ∧ token < s.vocabSize) ∧
      (s.rng ≠ 0 → s'.rng ≠ 0)
  | [], s, t, h, _ => ⟨[], s, t, rfl, rfl, h, rfl, fun _ hmem => absurd hmem List.not_mem_nil, id⟩
  | logits :: rest, s, t, h, hn => by
      obtain ⟨token, s₁, t₁, logits', hs, ht, h₁, hrange, hsize, hrng⟩ :=
        tqSample_alike O h hn logits
      obtain ⟨tokens, s₂, t₂, hs', ht', h₂, hlen, hmem, hrng'⟩ :=
        tqSampleAll_alike rest h₁ (hsize ▸ hn)
      refine ⟨token :: tokens, s₂, t₂, ?_, ?_, h₂, congrArg (· + 1) hlen, ?_,
        fun hne => hrng' (hrng hne)⟩
      · rw [tqSampleAll]
        simp only [hs, hs', Option.bind_eq_bind, Option.bind_some]
      · rw [tqSampleAll]
        simp only [ht, ht', Option.bind_eq_bind, Option.bind_some]
      · rw [hsize] at hmem
        exact List.forall_mem_cons.mpr ⟨hrange, hmem⟩

/-- **Sampling never fails.**  A sampler set up with any settings draws a token of
the vocabulary from each of any logits, whatever they are; the tokens do not
depend on what the scratch holds, and the generator is never at zero, where it
would stay. -/
theorem tqSample_run {n : Nat} (hn : 0 < n) (temperature topp : F) (seed : UInt64)
    (idx idx' : Nat → Int) (prob prob' : Nat → F) (all : List (Nat → F)) :
    ∃ tokens s s',
      tqSampleAll O (tqSamplerInit n temperature topp seed (some idx) (some prob)) all =
        some (tokens, s) ∧
      tqSampleAll O (tqSamplerInit n temperature topp seed (some idx') (some prob')) all =
        some (tokens, s') ∧
      tokens.length = all.length ∧ (∀ token ∈ tokens, 0 ≤ token ∧ token < n) ∧ s.rng ≠ 0 ∧
        s.rng = s'.rng := by
  have hseed : (tqSamplerInit n temperature topp seed (some idx) (some prob)).rng ≠ 0 := by
    unfold tqSamplerInit
    dsimp only
    split
    · assumption
    · decide
  obtain ⟨tokens, s, s', hs, hs', halike, hlen, hmem, hrng⟩ :=
    tqSampleAll_alike O all (s := tqSamplerInit n temperature topp seed (some idx) (some prob))
      (t := tqSamplerInit n temperature topp seed (some idx') (some prob')) ⟨rfl, rfl, rfl,
        rfl, rfl, rfl⟩ hn
  exact ⟨tokens, s, s', hs, hs', hlen, hmem, hrng hseed, halike.rng⟩

/-- Three draws of two tokens. -/
theorem tqSample_run_two : ∃ tokens s s',
    tqSampleAll ratOps (tqSamplerInit 2 (1 / 2) (1 / 2) 0 (some fun _ => 7) (some fun _ => 3))
      [fun _ => 0, fun i => i, fun _ => -1] = some (tokens, s) ∧
    tqSampleAll ratOps (tqSamplerInit 2 (1 / 2) (1 / 2) 0 (some fun _ => 0) (some fun i => i))
      [fun _ => 0, fun i => i, fun _ => -1] = some (tokens, s') ∧
    tokens.length = 3 ∧ (∀ token ∈ tokens, 0 ≤ token ∧ token < (2 : Nat)) ∧ s.rng ≠ 0 ∧
      s.rng = s'.rng :=
  tqSample_run ratOps (by decide) (1 / 2) (1 / 2) 0 (fun _ => 7) (fun _ => 0)
    (fun _ => 3) (fun i => i) [fun _ => 0, fun i => i, fun _ => -1]

end Draw

end TinyLlm
