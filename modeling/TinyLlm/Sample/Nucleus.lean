/-
# `TinyLlm.Sample.Nucleus` — the cutoff of the nucleus loses nothing

In exact arithmetic the nucleus branch draws from the shortest prefix of a
descending ordering of the whole distribution whose sum exceeds `topp`, each
entry for the draws in its slice of the cumulative sums (`tqNucleus_exact`).

A prefix of two or more entries has none below the cutoff, so sorting what
reaches it, with the others behind, gives such an ordering.  A prefix of one is
the largest entry, which may be below the cutoff itself: then nothing reaches
it, and the branch answers with the largest.
-/
import Mathlib.Data.List.Sort
import TinyLlm.Ac.Delta
import TinyLlm.Lib.TopMass
import TinyLlm.Sample.Sampler

namespace TinyLlm

open Loop TopMass

/-! ## The largest entry -/

theorem tqArgmax_spec (p : Nat → ℚ) {n : Nat} (hn : 0 < n) :
    tqArgmax ratOps p n < n ∧ ∀ i < n, p i ≤ p (tqArgmax ratOps p n) := by
  have hinv : tqArgmax ratOps p n < (n - 1) + 1 ∧ ∀ i < (n - 1) + 1, p i ≤
      p (tqArgmax ratOps p n) := by
    refine forUp_inv (I := fun k best => best < k + 1 ∧ ∀ i < k + 1, p i ≤ p best) ?_ ?_
    · exact ⟨Nat.one_pos, fun i hi => (Nat.lt_one_iff.mp hi) ▸ le_refl _⟩
    · rintro k _ best ⟨hbest, hmax⟩
      by_cases hlt : p best < p (k + 1)
      · have hround : (if ratOps.lt (p best) (p (k + 1)) then k + 1 else best) = k + 1 :=
          if_pos (decide_eq_true hlt)
        rw [hround]
        refine ⟨Nat.lt_succ_self _, fun i hi => ?_⟩
        rcases (Nat.lt_succ_iff.mp hi).eq_or_lt with rfl | hi
        · exact le_refl _
        · exact (hmax i hi).trans hlt.le
      · have hround : (if ratOps.lt (p best) (p (k + 1)) then k + 1 else best) = best :=
          if_neg fun h => hlt (of_decide_eq_true h)
        rw [hround]
        refine ⟨by omega, fun i hi => ?_⟩
        rcases (Nat.lt_succ_iff.mp hi).eq_or_lt with rfl | hi
        · exact not_lt.mp hlt
        · exact hmax i hi
  rwa [Nat.sub_add_cancel hn] at hinv

/-! ## The entries that reach the cutoff -/

theorem ratOps_le {a b : ℚ} : ratOps.le a b = true ↔ a ≤ b := by
  show (decide (a < b) || decide (a = b)) = true ↔ a ≤ b
  rw [Bool.or_eq_true, decide_eq_true_eq, decide_eq_true_eq]
  exact le_iff_lt_or_eq.symm

/-- The positions of the entries that reach the cutoff. -/
def reaching (cutoff : ℚ) (n : Nat) (p : Nat → ℚ) : List Nat :=
  (List.range n).filter fun i => decide (cutoff ≤ p i)

/-- The first `k` pairs of the arrays. -/
def pairs {P I : Type} (s : Candidates P I) (k : Nat) : List (P × I) :=
  (List.range k).map fun j => (s.prob j, s.idx j)

theorem survivors_spec (cutoff : ℚ) (n : Nat) (p : Nat → ℚ) (s : Candidates ℚ Int) :
    (survivors ratOps cutoff n p s).2 = (reaching cutoff n p).length ∧
      pairs (survivors ratOps cutoff n p s).1 (reaching cutoff n p).length =
        (reaching cutoff n p).map fun i => (p i, (i : Int)) := by
  refine forUp_inv (I := fun n (sk : Candidates ℚ Int × Nat) => sk.2 =
    (reaching cutoff n p).length ∧ pairs sk.1 (reaching cutoff n p).length =
    (reaching cutoff n p).map fun i => (p i, (i : Int))) ?_ ?_
  · exact ⟨rfl, rfl⟩
  · rintro i _ ⟨t, k⟩ ⟨hk, hpairs⟩
    obtain rfl : k = (reaching cutoff i p).length := hk
    by_cases hle : cutoff ≤ p i
    · have hreach : reaching cutoff (i + 1) p = reaching cutoff i p ++ [i] := by
        unfold reaching
        rw [List.range_succ, List.filter_append, List.filter_singleton,
          decide_eq_true hle, cond_true]
      rw [hreach, List.length_append, List.length_singleton, List.map_append, ← hpairs]
      dsimp only
      rw [if_pos (ratOps_le.mpr hle)]
      refine ⟨rfl, ?_⟩
      unfold pairs
      rw [List.range_succ, List.map_append]
      congr 1
      · refine List.map_congr_left fun j hj => ?_
        have hne : j ≠ (reaching cutoff i p).length := (List.mem_range.mp hj).ne
        dsimp only
        rw [Function.update_of_ne hne, Function.update_of_ne hne]
      · simp only [List.map_cons, List.map_nil, Function.update_self]
    · have hreach : reaching cutoff (i + 1) p = reaching cutoff i p := by
        unfold reaching
        rw [List.range_succ, List.filter_append, List.filter_singleton,
          decide_eq_false hle, cond_false, List.append_nil]
      rw [hreach]
      dsimp only
      rw [if_neg fun h => hle (ratOps_le.mp h)]
      exact ⟨rfl, hpairs⟩

/-- The arrays hold the entries at `front`, in that order. -/
structure HoldsEntries (p : Nat → ℚ) (front : List Nat) (t : Candidates ℚ Int) : Prop where
  prob : ∀ j (h : j < front.length), t.prob j = p front[j]
  idx : ∀ j (h : j < front.length), t.idx j = front[j]

/-- After the sort the arrays hold the entries that reach the cutoff, descending. -/
theorem sorted_survivors (cutoff : ℚ) (n : Nat) (p : Nat → ℚ) (s : Candidates ℚ Int) :
    ∃ front t, (survivors ratOps cutoff n p s).1.tqHeapsortDesc ratOps.lt
      (reaching cutoff n p).length = some t ∧
      front.Perm (reaching cutoff n p) ∧ (front.Pairwise fun i j => p j ≤ p i) ∧
        HoldsEntries p front t := by
  obtain ⟨-, hpairs⟩ := survivors_spec cutoff n p s
  obtain ⟨t, ht, hdesc, hperm, -⟩ :=
    (survivors ratOps cutoff n p s).1.tqHeapsortDesc_sorts (reaching cutoff n p).length
  change (pairs t _).Perm (pairs _ _) at hperm
  rw [hpairs] at hperm
  obtain ⟨front, hfront⟩ : ∃ front, front = (pairs t (reaching cutoff n p).length).map
    fun x => x.2.toNat :=
    ⟨_, rfl⟩
  have hlen : front.length = (reaching cutoff n p).length := by
    rw [hfront, List.length_map, pairs, List.length_map, List.length_range]
  have hget : ∀ j (h : j < front.length), front[j] = (t.idx j).toNat := by
    intro j h
    simp only [hfront, pairs, List.getElem_map, List.getElem_range]
  have hentry : ∀ j, j < front.length → ∃ i : Nat, t.prob j = p i ∧ t.idx j = i := by
    intro j h
    have hmem : (t.prob j, t.idx j) ∈ pairs t (reaching cutoff n p).length :=
      List.mem_map.mpr ⟨j, List.mem_range.mpr (hlen ▸ h), rfl⟩
    obtain ⟨i, -, hi⟩ := List.mem_map.mp (hperm.mem_iff.mp hmem)
    obtain ⟨hprob, hidx⟩ := Prod.mk.inj hi
    exact ⟨i, hprob.symm, hidx.symm⟩
  have hholds : HoldsEntries p front t := by
    constructor
    · intro j h
      obtain ⟨i, hprob, hidx⟩ := hentry j h
      rw [hget j h, hidx, Int.toNat_natCast]
      exact hprob
    · intro j h
      obtain ⟨i, -, hidx⟩ := hentry j h
      rw [hget j h, hidx, Int.toNat_natCast]
  refine ⟨front, t, ht, ?_, ?_, hholds⟩
  · have hmap := hperm.map fun x => x.2.toNat
    rw [← hfront, List.map_map] at hmap
    have hid : ((fun x : ℚ × Int => x.2.toNat) ∘ fun i : Nat => (p i, (i : Int))) = id := by
      funext i
      exact Int.toNat_natCast i
    rwa [hid, List.map_id] at hmap
  · refine List.pairwise_iff_getElem.mpr fun i j hi hj hij => ?_
    rw [← hholds.prob i hi, ← hholds.prob j hj]
    exact hdesc i j hij.le (hlen ▸ hj)

/-! ## The two loops over the sorted entries -/

section Loops
variable {p : Nat → ℚ} {front back : List Nat} {t : Candidates ℚ Int} {topp : ℚ} {m : Nat}

theorem HoldsEntries.mass_succ (h : HoldsEntries p front t) {i : Nat} (hi : i < front.length) :
    mass p (front ++ back) (i + 1) = mass p (front ++ back) i + t.prob i := by
  rw [mass_append p front back hi, mass_append p front back hi.le,
    TopMass.mass_succ p hi, h.prob i hi]

/-- **The cut** is behind the shortest prefix. -/
theorem cutFrom_eq (h : HoldsEntries p front t) (hs : TopMass.Shortest p (front ++ back) topp m)
    (hm : m ≤ front.length) :
    ∀ left i, i + left = front.length → i < m →
      cutFrom ratOps t.prob topp left i (mass p (front ++ back) i) =
      (some (m - 1), mass p (front ++ back) m)
  | 0, i, hi, him => by omega
  | left + 1, i, hi, him => by
      have hadd : ratOps.add (mass p (front ++ back) i) (t.prob i) =
          mass p (front ++ back) (i + 1) :=
        (h.mass_succ (show i < front.length by omega)).symm
      rw [cutFrom, hadd]
      by_cases hlast : i + 1 = m
      · have hexceeds := hs.exceeds
        rw [← hlast] at hexceeds ⊢
        exact if_pos (decide_eq_true hexceeds)
      · have hnot := hs.shortest (i + 1) (by omega)
        refine (if_neg fun hlt => ?_).trans (cutFrom_eq h hs hm left (i + 1) (by omega) (by omega))
        exact absurd (of_decide_eq_true hlt) (not_lt.mpr hnot)

/-- **The draw** picks the entry in whose slice it lies. -/
theorem pickFrom_slice (h : HoldsEntries p front t) (hm : m ≤ front.length) {x : ℚ}
    (hx : x < mass p (front ++ back) m) : ∀ left i, i + left = m → mass p (front ++ back) i ≤ x →
      ∃ j < m, pickFrom ratOps t.prob x left i (mass p (front ++ back) i) = some j ∧
        InSlice p (front ++ back) x j
  | 0, i, hi, hle => by
      obtain rfl : i = m := hi
      exact absurd hx (not_lt.mpr hle)
  | left + 1, i, hi, hle => by
      have hadd : ratOps.add (mass p (front ++ back) i) (t.prob i) =
          mass p (front ++ back) (i + 1) :=
        (h.mass_succ (show i < front.length by omega)).symm
      rw [pickFrom, hadd]
      by_cases hlt : x < mass p (front ++ back) (i + 1)
      · exact ⟨i, by omega, if_pos (decide_eq_true hlt), hle, hlt⟩
      · obtain ⟨j, hj, hpick, hslice⟩ := pickFrom_slice h hm hx left (i + 1) (by omega)
          (not_lt.mp hlt)
        exact ⟨j, hj, (if_neg fun h => hlt (of_decide_eq_true h)).trans hpick, hslice⟩

end Loops

/-! ## The branch -/

/-- `(1 - topp) / (n - 1)`. -/
theorem ratOps_cutoff (topp : ℚ) {n : Nat} (hn : 2 ≤ n) :
    ratOps.div (ratOps.sub (ratOps.ofInt 1) topp) (ratOps.ofInt ((n : Int) - 1)) =
      (1 - topp) / (n - 1 : Nat) := by
  have hcast : ((n : Int) - 1) = ((n - 1 : Nat) : Int) := by omega
  show ((1 : Int) - topp) / (((n : Int) - 1 : Int) : ℚ) = _
  rw [hcast, Int.cast_one, Int.cast_natCast]

section Branch
variable {n : Nat} {p : Nat → ℚ} {topp : ℚ} {s : Candidates ℚ Int} {rng rng' : UInt64} {r : ℚ}

/-- The entries that reach the cutoff sorted, and the others behind them, are a
descending ordering of all. -/
theorem ordering_append {cutoff : ℚ} {front : List Nat} (hperm : front.Perm (reaching cutoff n p))
    (hdesc : front.Pairwise fun i j => p j ≤ p i) :
    ∃ back, (front ++ back).Perm (List.range n) ∧ ((front ++ back).Pairwise fun i j => p j ≤ p i) ∧
      ∀ i ∈ back, p i < cutoff := by
  have htotal : Std.Total fun i j => p j ≤ p i := ⟨fun i j => le_total (p j) (p i)⟩
  have htrans : IsTrans Nat fun i j => p j ≤ p i := ⟨fun i j k hij hjk => hjk.trans hij⟩
  obtain ⟨rest, hrest⟩ : ∃ rest, rest = (List.range n).filter
    fun i => !decide (cutoff ≤ p i) := ⟨_, rfl⟩
  have hback := List.perm_insertionSort (fun i j => p j ≤ p i) rest
  have hbelow : ∀ i ∈ rest.insertionSort fun i j => p j ≤ p i, p i < cutoff := by
    intro i hi
    rw [hback.mem_iff, hrest] at hi
    have hnot := (List.mem_filter.mp hi).2
    rw [Bool.not_eq_true', decide_eq_false_iff_not] at hnot
    exact not_le.mp hnot
  refine ⟨rest.insertionSort fun i j => p j ≤ p i, ?_, ?_, hbelow⟩
  · rw [hrest] at hback ⊢
    exact (hperm.append hback).trans (List.filter_append_perm _ _)
  · refine List.pairwise_append.mpr ⟨hdesc, List.pairwise_insertionSort _ rest, fun i hi j hj => ?_⟩
    have hreach := (List.mem_filter.mp (hperm.mem_iff.mp hi)).2
    exact (hbelow j hj).le.trans (of_decide_eq_true hreach)

/-- What the branch answers over an ordering: for each draw the entry in whose
slice it lies. -/
def DrawsFrom (p : Nat → ℚ) (order : List Nat) (m : Nat) (r : ℚ) (token : Int) : Prop :=
  ∃ j < m, ∃ i, order[j]? = some i ∧ (i : Int) = token ∧ InSlice p order (r * mass p order m) j

/-- Where no entry reaches the cutoff, the largest is the whole prefix. -/
theorem tqNucleus_largest (hn : 2 ≤ n) (hsum : ((List.range n).map p).sum = 1) (h0 : 0 ≤ topp)
    (h1 : topp < 1) (hnone : reaching ((1 - topp) / (n - 1 : Nat)) n p = []) :
    ∃ order m, order.Perm (List.range n) ∧ TopMass.Shortest p order topp m ∧ ∀ r, 0 ≤ r → r < 1 →
      ∀ s rng rng', ∃ token out, tqNucleus ratOps topp n p s rng (r, rng') = some (token, out) ∧
        DrawsFrom p order m r token := by
  have hpos : 0 < n := by omega
  obtain ⟨hlt, hmax⟩ := tqArgmax_spec p hpos
  obtain ⟨best, hbest⟩ : ∃ best, best = tqArgmax ratOps p n := ⟨_, rfl⟩
  rw [← hbest] at hlt hmax
  have htotal : Std.Total fun i j => p j ≤ p i := ⟨fun i j => le_total (p j) (p i)⟩
  have htrans : IsTrans Nat fun i j => p j ≤ p i := ⟨fun i j k hij hjk => hjk.trans hij⟩
  obtain ⟨rest, hrest⟩ : ∃ rest, rest = ((List.range n).erase best).insertionSort
    fun i j => p j ≤ p i :=
    ⟨_, rfl⟩
  have hperm : (best :: rest).Perm (List.range n) := by
    have hsort := List.perm_insertionSort (fun i j => p j ≤ p i) ((List.range n).erase best)
    rw [← hrest] at hsort
    exact (hsort.cons best).trans (List.perm_cons_erase (List.mem_range.mpr hlt)).symm
  have hdesc : (best :: rest).Pairwise fun i j => p j ≤ p i := by
    refine List.pairwise_cons.mpr ⟨fun i hi => ?_, hrest ▸ List.pairwise_insertionSort _ _⟩
    exact hmax i (List.mem_range.mp (hperm.mem_iff.mp (List.mem_cons_of_mem best hi)))
  have htotalMass : ((best :: rest).map p).sum = 1 := by rw [(hperm.map p).sum_eq, hsum]
  have hlen : (best :: rest).length = n := by rw [hperm.length_eq, List.length_range]
  obtain ⟨m, hm⟩ := exists_shortest hdesc (by rw [htotalMass]; exact h1)
  have hone : m = 1 := by
    by_contra hne
    have hmpos := hm.pos h0
    have hcut := hm.cutoff_le (by rw [htotalMass]; exact h1.le) hlen (show 2 ≤ m by omega)
      (show 0 < m by omega) (Nat.succ_pos rest.length)
    rw [htotalMass] at hcut
    have hmem : best ∈ reaching ((1 - topp) / (n - 1 : Nat)) n p :=
      List.mem_filter.mpr ⟨List.mem_range.mpr hlt, decide_eq_true hcut⟩
    rw [hnone] at hmem
    cases hmem
  subst hone
  refine ⟨best :: rest, 1, hperm, hm, fun r hr0 hr1 s rng rng' => ?_⟩
  have hzero : (survivors ratOps ((1 - topp) / (n - 1 : Nat)) n p s).2 = 0 := by
    rw [(survivors_spec _ n p s).1, hnone]
    rfl
  have hexceeds := hm.exceeds
  have hmass : 0 < mass p (best :: rest) 1 := h0.trans_lt hexceeds
  refine ⟨(best : Int), (rng, (survivors ratOps ((1 - topp) / (n - 1 : Nat)) n p s).1), ?_, 0,
    Nat.one_pos, best, rfl, rfl, ?_, ?_⟩
  · unfold tqNucleus
    dsimp only
    rw [ratOps_cutoff topp hn, if_pos hzero, hbest]
  · rw [mass_zero]
    exact mul_nonneg hr0 hmass.le
  · exact mul_lt_of_lt_one_left hmass hr1

/-- Where some do, the sorted survivors begin with the prefix. -/
theorem tqNucleus_sorted (hn : 2 ≤ n) (hsum : ((List.range n).map p).sum = 1) (h0 : 0 ≤ topp)
    (h1 : topp < 1) (hsome : reaching ((1 - topp) / (n - 1 : Nat)) n p ≠ [])
    (s : Candidates ℚ Int) :
    ∃ order m, order.Perm (List.range n) ∧ TopMass.Shortest p order topp m ∧ ∀ r, 0 ≤ r → r < 1 →
      ∀ rng rng', ∃ token out, tqNucleus ratOps topp n p s rng (r, rng') = some (token, out) ∧
        DrawsFrom p order m r token := by
  obtain ⟨hk, -⟩ := survivors_spec ((1 - topp) / (n - 1 : Nat)) n p s
  obtain ⟨front, t, ht, hperm, hdesc, hholds⟩ := sorted_survivors ((1 - topp) / (n - 1 : Nat)) n p s
  obtain ⟨back, hall, hdescAll, hbelow⟩ := ordering_append hperm hdesc
  have hfront : front.length = (reaching ((1 - topp) / (n - 1 : Nat)) n p).length := hperm.length_eq
  have hfrontPos : 0 < front.length := hfront ▸ List.length_pos_iff.mpr hsome
  have htotal : ((front ++ back).map p).sum = 1 := by rw [(hall.map p).sum_eq, hsum]
  have hlen : (front ++ back).length = n := by rw [hall.length_eq, List.length_range]
  obtain ⟨m, hm⟩ := exists_shortest hdescAll (by rw [htotal]; exact h1)
  have hmpos := hm.pos h0
  have hinside : m ≤ front.length := by
    by_contra hover
    have hback : front.length < (front ++ back).length := lt_of_lt_of_le (not_le.mp hover) hm.size
    have hcut := hm.cutoff_le (by rw [htotal]; exact h1.le) hlen (show 2 ≤ m by omega)
      (not_le.mp hover) hback
    rw [htotal, List.getElem_append_right (Nat.le_refl _)] at hcut
    exact absurd (hbelow _ (List.getElem_mem _)) (not_lt.mpr hcut)
  refine ⟨front ++ back, m, hall, hm, fun r hr0 hr1 rng rng' => ?_⟩
  have hmass : 0 < mass p (front ++ back) m := h0.trans_lt hm.exceeds
  have hcut : cutFrom ratOps t.prob topp front.length 0 (ratOps.ofInt 0) =
      (some (m - 1), mass p (front ++ back) m) :=
    cutFrom_eq hholds hm hinside front.length 0 (Nat.zero_add _) hmpos
  obtain ⟨j, hj, hpick, hslice⟩ := @pickFrom_slice p front back t m hholds hinside
    (r * mass p (front ++ back) m) (mul_lt_of_lt_one_left hmass hr1) m 0 (Nat.zero_add m)
    (mul_nonneg hr0 hmass.le)
  have hjlen : j < front.length := lt_of_lt_of_le hj hinside
  refine ⟨t.idx j, (rng', t), ?_, j, hj, front[j], ?_, (hholds.idx j hjlen).symm, hslice⟩
  · unfold tqNucleus
    dsimp only
    rw [ratOps_cutoff topp hn, hk, if_neg (by omega), ht, ← hfront]
    show some
      (t.idx ((pickFrom ratOps t.prob
      (ratOps.mul r (cutFrom ratOps t.prob topp front.length 0 (ratOps.ofInt 0)).2)
      ((cutFrom ratOps t.prob topp front.length 0 (ratOps.ofInt 0)).1.getD
        (front.length - 1) + 1) 0 (ratOps.ofInt 0)).getD _), rng', t) = _
    rw [hcut]
    show some (t.idx ((pickFrom ratOps t.prob (r * mass p (front ++ back) m) (m - 1 + 1) 0
      (ratOps.ofInt 0)).getD _), rng', t) = _
    rw [Nat.sub_add_cancel hmpos]
    have hpick' : pickFrom ratOps t.prob (r * mass p (front ++ back) m) m 0 (ratOps.ofInt 0) =
        some j := hpick
    rw [hpick']
    rfl
  · rw [List.getElem?_append_left hjlen, List.getElem?_eq_getElem hjlen]

/-- **The prefilter loses nothing.**  There are a descending ordering of the whole
distribution and the shortest of its prefixes that exceeds `topp`, such that the
branch answers a draw `r` with the entry of the prefix in whose slice `r`, times
the sum of the prefix, lies; and every entry of the prefix has such draws. -/
theorem tqNucleus_exact (hn : 2 ≤ n) (hp : ∀ i < n, 0 ≤ p i) (hsum : ((List.range n).map p).sum = 1)
    (h0 : 0 < topp) (h1 : topp < 1) (s : Candidates ℚ Int) :
    ∃ order m, order.Perm (List.range n) ∧ TopMass.Shortest p order topp m ∧
      (∀ r, 0 ≤ r → r < 1 → ∀ rng rng', ∃ answer out,
        tqNucleus ratOps topp n p s rng (r, rng') = some (answer, out) ∧
          ∀ token, answer = token ↔ DrawsFrom p order m r token) ∧
      ∀ token, (∃ j < m, ∃ i, order[j]? = some i ∧ (i : Int) = token) ↔
        ∃ r, 0 ≤ r ∧ r < 1 ∧ DrawsFrom p order m r token := by
  have hbranch : ∃ order m, order.Perm (List.range n) ∧ TopMass.Shortest p order topp m ∧
      ∀ r, 0 ≤ r → r < 1 →
      ∀ rng rng', ∃ token out, tqNucleus ratOps topp n p s rng (r, rng') = some (token, out) ∧
        DrawsFrom p order m r token := by
    by_cases hnone : reaching ((1 - topp) / (n - 1 : Nat)) n p = []
    · obtain ⟨order, m, hperm, hm, hdraw⟩ := tqNucleus_largest hn hsum h0.le h1 hnone
      exact ⟨order, m, hperm, hm, fun r hr0 hr1 rng rng' => hdraw r hr0 hr1 s rng rng'⟩
    · exact tqNucleus_sorted hn hsum h0.le h1 hnone s
  obtain ⟨order, m, hperm, hm, hdraw⟩ := hbranch
  have hnonneg : ∀ i ∈ order, 0 ≤ p i := fun i hi => hp i (List.mem_range.mp (hperm.mem_iff.mp hi))
  have hmass : 0 < mass p order m := h0.trans hm.exceeds
  refine ⟨order, m, hperm, hm, fun r hr0 hr1 rng rng' => ?_, fun token => ⟨?_, ?_⟩⟩
  · obtain ⟨answer, out, hrun, hslice⟩ := hdraw r hr0 hr1 rng rng'
    refine ⟨answer, out, hrun, fun token => ⟨fun h => h ▸ hslice, ?_⟩⟩
    rintro ⟨j, _, i, hi, rfl, hin⟩
    obtain ⟨j', _, i', hi', rfl, hin'⟩ := hslice
    obtain rfl := hin.unique hnonneg hin'
    rw [hi] at hi'
    rw [Option.some.inj hi']
  · rintro ⟨j, hj, i, hi, rfl⟩
    have hpos := hm.slice_pos hj
    have hj0 : 0 ≤ mass p order j := mass_mono hnonneg (Nat.zero_le j)
    have hjm : mass p order (j + 1) ≤ mass p order m := mass_mono hnonneg hj
    -- the draw at the start of the slice
    refine ⟨mass p order j / mass p order m, div_nonneg hj0 hmass.le, ?_, j, hj, i, hi, rfl, ?_⟩
    · rw [div_lt_one hmass]
      exact hpos.trans_le hjm
    · rw [div_mul_cancel₀ _ hmass.ne']
      exact ⟨le_refl _, hpos⟩
  · rintro ⟨_, _, _, j, hj, i, hi, htoken, _⟩
    exact ⟨j, hj, i, hi, htoken⟩

end Branch

/-- Three entries of which none reaches the cutoff. -/
theorem tqNucleus_exact_flat :
    ∃ order m, order.Perm (List.range 3) ∧
      TopMass.Shortest (fun _ => (1 / 3 : ℚ)) order (1 / 10) m ∧
      (∀ r, 0 ≤ r → r < 1 → ∀ rng rng', ∃ answer out,
        tqNucleus ratOps (1 / 10) 3 (fun _ => (1 / 3 : ℚ)) ⟨fun _ => 0, fun _ => 0⟩ rng (r, rng') =
          some (answer, out) ∧ ∀ token, answer = token ↔
          DrawsFrom (fun _ => (1 / 3 : ℚ)) order m r token) ∧
      ∀ token, (∃ j < m, ∃ i, order[j]? = some i ∧ (i : Int) = token) ↔
        ∃ r, 0 ≤ r ∧ r < 1 ∧ DrawsFrom (fun _ => (1 / 3 : ℚ)) order m r token :=
  tqNucleus_exact (by decide) (fun _ _ => by norm_num) (by norm_num [List.range_succ]) (by norm_num)
    (by norm_num) _

/-! ## The sampler -/

/-- The generator draws from `[0, 1)`. -/
theorem tqRandF32_range (seed : UInt64) :
    0 ≤ (tqRandF32 ratOps seed).1 ∧ (tqRandF32 ratOps seed).1 < 1 := by
  have hdraw : (tqRandF32 ratOps seed).1 =
      (((tqRandU32 seed).1 >>> 8).toNat : ℚ) * ((1 : Int) / (16777216 : Int)) := by
    unfold tqRandF32
    rfl
  have hbits : ((tqRandU32 seed).1 >>> 8).toNat < 16777216 := by
    have hword := UInt32.toNat_lt (tqRandU32 seed).1
    rw [UInt32.toNat_shiftRight]
    show (tqRandU32 seed).1.toNat >>> 8 < _
    rw [Nat.shiftRight_eq_div_pow]
    omega
  rw [hdraw]
  have hcast : (((tqRandU32 seed).1 >>> 8).toNat : ℚ) < 16777216 := by exact_mod_cast hbits
  have hnat : (0 : ℚ) ≤ (((tqRandU32 seed).1 >>> 8).toNat : ℚ) := Nat.cast_nonneg _
  push_cast
  constructor
  · positivity
  · linarith

/-- With a temperature, a `topp` inside `(0, 1)` and scratch, the sampler takes
the branch on the softmaxed logits. -/
theorem tqSample_nucleus {F : Type} (O : FloatOps F) {s : TqSampler F} {idx : Nat → Int}
    {prob : Nat → F} (hidx : s.idx = some idx) (hprob : s.prob = some prob)
    (htemp : O.le s.temperature (O.ofInt 0) = false) (hlow : O.le s.topp (O.ofInt 0) = false)
    (hhigh : O.le (O.ofInt 1) s.topp = false) (logits : Nat → F) :
    tqSample O s logits =
      let p := softmaxLogits O s.temperature s.vocabSize logits
      (tqNucleus O s.topp s.vocabSize p ⟨prob, idx⟩ s.rng (tqRandF32 O s.rng)).map fun out =>
        (out.1, { s with rng := out.2.1, idx := some out.2.2.idx, prob := some out.2.2.prob },
          p) := by
  unfold tqSample
  dsimp only
  rw [htemp, hlow, hhigh, hidx, hprob]
  rfl

end TinyLlm
