/-
# `TinyLlm.Sample.Heapsort` — `tq_heapsort_desc`, `tq_sample.c`

The sampler sorts two arrays in step: the probabilities of the candidates, and
their token numbers.  Every access names the number of elements that the
function was given, and one outside them makes the run `none`.

An exchange in both arrays is one transposition of the positions, so whatever
the loops do to the first array they do to the second.  `Rearranged` is that
invariant, and the order comes from `Heap`.

Positions are natural numbers.  No index that is formed exceeds twice the number
of elements, so an `int` holds them all for fewer than 2^30 elements.
-/
import TinyLlm.Lib.Heap
import TinyLlm.Lib.Loop

namespace TinyLlm

open Loop Heap

/-! ## The code -/

/-- `a[i]`, of `n` elements. -/
def readAt {α : Type} (n : Nat) (a : Nat → α) (i : Nat) : Option α :=
  if i < n then some (a i) else none

/-- `a[i] = v`. -/
def writeAt {α : Type} (n : Nat) (a : Nat → α) (i : Nat) (v : α) : Option (Nat → α) :=
  if i < n then some (Function.update a i v) else none

/-- `t = a[i]; a[i] = a[j]; a[j] = t;` -/
def exchange {α : Type} (n : Nat) (a : Nat → α) (i j : Nat) : Option (Nat → α) := do
  let t ← readAt n a i
  let u ← readAt n a j
  let a ← writeAt n a i u
  writeAt n a j t

/-- The parallel arrays. -/
structure Candidates (P I : Type) where
  prob : Nat → P
  idx : Nat → I

namespace Candidates

variable {P I : Type} (lt : P → P → Bool)

/-- The exchange in both arrays. -/
def swap (n : Nat) (s : Candidates P I) (i j : Nat) : Option (Candidates P I) := do
  let prob ← exchange n s.prob i j
  let idx ← exchange n s.idx i j
  some ⟨prob, idx⟩

/-- `child`, where it exists and is larger than `big`. -/
def larger (n : Nat) (s : Candidates P I) (big child : Nat) : Option Nat :=
  if child < n then do
    let c ← readAt n s.prob child
    let b ← readAt n s.prob big
    some (if lt b c then child else big)
  else some big

/-- The loop of `tq_sift`: the root moves down in each round, so `n` rounds are
enough. -/
def siftLoop (n : Nat) : Nat → Candidates P I → Nat → Option (Candidates P I)
  | 0, _, _ => none
  | fuel + 1, s, root => do
      let big ← s.larger lt n root (2 * root + 1)
      let big ← s.larger lt n big (2 * root + 1 + 1)
      if big = root then some s
      else
        let s ← s.swap n root big
        siftLoop n fuel s big

def tqSift (s : Candidates P I) (root n : Nat) : Option (Candidates P I) := siftLoop lt n n s root

/-- The round for `i` of the second loop: the largest of the first `i + 1`
elements goes to the back of them. -/
def popMax (n i : Nat) (s : Candidates P I) : Option (Candidates P I) := do
  let s ← s.swap n 0 i
  s.tqSift lt 0 i

def tqHeapsortDesc (s : Candidates P I) (n : Nat) : Option (Candidates P I) := do
  let s ← forDownM (fun i s => s.tqSift lt i n) (n / 2) s
  let s ← forDownM (fun i s => popMax lt n (i + 1) s) (n - 1) s
  forUpM (fun i s => s.swap n i (n - 1 - i)) (n / 2) s

end Candidates

/-! ## Accesses -/

section Access
variable {α : Type} {n i j : Nat}

theorem readAt_eq {a : Nat → α} (h : i < n) : readAt n a i = some (a i) := if_pos h

/-- An exchange within the bounds is a transposition. -/
theorem exchange_eq (a : Nat → α) (hi : i < n) (hj : j < n) :
    exchange n a i j = some (a ∘ Equiv.swap i j) := by
  have hswap : Function.update (Function.update a i (a j)) j (a i) = a ∘ Equiv.swap i j := by
    funext k
    rw [Function.comp_apply, Equiv.swap_apply_def, Function.update_apply, Function.update_apply]
    by_cases hkj : k = j
    · rw [if_pos hkj]
      by_cases hki : k = i
      · rw [if_pos hki, ← hkj, hki]
      · rw [if_neg hki, if_pos hkj]
    · rw [if_neg hkj]
      by_cases hki : k = i
      · rw [if_pos hki, if_pos hki]
      · rw [if_neg hki, if_neg hki, if_neg hkj]
  have hfirst : writeAt n a i (a j) = some (Function.update a i (a j)) := if_pos hi
  have hsecond : writeAt n (Function.update a i (a j)) j (a i) = some (a ∘ Equiv.swap i j) := by
    rw [writeAt, if_pos hj, hswap]
  unfold exchange
  simp only [readAt_eq hi, readAt_eq hj, hfirst, hsecond, Option.bind_eq_bind, Option.bind_some]

end Access

namespace Candidates

variable {P I : Type}

/-- `t` has the elements of `s`, in both arrays as `σ` places them. -/
structure Rearranged (s : Candidates P I) (σ : Equiv.Perm Nat) (t : Candidates P I) : Prop where
  prob : t.prob = s.prob ∘ σ
  idx : t.idx = s.idx ∘ σ

section Rearranged
variable {s t u : Candidates P I} {σ τ : Equiv.Perm Nat} {n i j : Nat}

theorem Rearranged.refl (s : Candidates P I) : Rearranged s (Equiv.refl Nat) s := ⟨rfl, rfl⟩

theorem Rearranged.trans (hσ : Rearranged s σ t) (hτ : Rearranged t τ u) :
    Rearranged s (τ.trans σ) u := by
  constructor
  · rw [hτ.prob, hσ.prob]
    rfl
  · rw [hτ.idx, hσ.idx]
    rfl

theorem swap_eq (s : Candidates P I) (hi : i < n) (hj : j < n) :
    ∃ t, s.swap n i j = some t ∧ Rearranged s (Equiv.swap i j) t := by
  refine ⟨⟨s.prob ∘ Equiv.swap i j, s.idx ∘ Equiv.swap i j⟩, ?_, rfl, rfl⟩
  unfold swap
  rw [exchange_eq s.prob hi hj, exchange_eq s.idx hi hj]
  rfl

end Rearranged

/-- **Turning the arrays round.** -/
theorem reverse_spec (s : Candidates P I) (n : Nat) :
    ∃ t, forUpM (fun i s => s.swap n i (n - 1 - i)) (n / 2) s = some t ∧
      ∃ σ, Rearranged s σ t ∧ FixesFrom n σ ∧ ∀ i, i < n → t.prob i = s.prob (n - 1 - i) := by
  have hloop := @forUpM_inv _ (fun k t => ∃ σ, Rearranged s σ t ∧ FixesFrom n σ ∧
    ∀ i, i < n → t.prob i = if i < k ∨ n - 1 - i < k then s.prob (n - 1 - i) else s.prob i)
    (fun i s => s.swap n i (n - 1 - i)) (n / 2) s ?_ ?_
  · obtain ⟨t, ht, σ, hσ, hfix, hturned⟩ := hloop
    refine ⟨t, ht, σ, hσ, hfix, fun i hi => ?_⟩
    rw [hturned i hi]
    split
    · rfl
    · exact congrArg s.prob (by omega)
  · refine ⟨Equiv.refl Nat, Rearranged.refl s, FixesFrom.refl n, fun i _ => ?_⟩
    rw [if_neg (by omega)]
  · rintro k hk t ⟨σ, hσ, hfix, hturned⟩
    obtain ⟨u, hu, hswap⟩ := t.swap_eq (show k < n by omega) (show n - 1 - k < n by omega)
    refine ⟨u, hu, _, hσ.trans hswap, (FixesFrom.swap (by omega) (by omega)).trans hfix,
      fun i hi => ?_⟩
    rw [hswap.prob, Function.comp_apply, Equiv.swap_apply_def]
    by_cases hik : i = k
    · rw [if_pos hik, hturned _ (by omega), if_neg (by omega), if_pos (by omega), hik]
    · rw [if_neg hik]
      by_cases hik' : i = n - 1 - k
      · rw [if_pos hik', hturned k (by omega), if_neg (by omega), if_pos (by omega)]
        exact congrArg s.prob (by omega)
      · rw [if_neg hik', hturned i hi]
        by_cases hdone : i < k ∨ n - 1 - i < k
        · rw [if_pos hdone, if_pos (by omega)]
        · rw [if_neg hdone, if_neg (by omega)]

/-! ## Sifting -/

section Sorted
variable {P I : Type} [LinearOrder P]

/-- `<` of the order. -/
def below (a b : P) : Bool := decide (a < b)

theorem larger_spec {s : Candidates P I} {n big child : Nat} (hbig : big < n) :
    ∃ best, s.larger below n big child = some best ∧ best < n ∧ s.prob big ≤ s.prob best ∧
      (child < n → s.prob child ≤ s.prob best) ∧ (best = big ∨ best = child) := by
  unfold larger
  by_cases hc : child < n
  · rw [if_pos hc, readAt_eq hc, readAt_eq hbig]
    by_cases hlt : s.prob big < s.prob child
    · refine ⟨child, congrArg some (if_pos (decide_eq_true hlt)), hc, hlt.le,
        fun _ => le_refl _, .inr rfl⟩
    · have hnot : ¬ below (s.prob big) (s.prob child) = true := fun h => hlt (of_decide_eq_true h)
      exact ⟨big, congrArg some (if_neg hnot), hbig, le_refl _, fun _ => not_lt.mp hlt, .inl rfl⟩
  · rw [if_neg hc]
    exact ⟨big, rfl, hbig, le_refl _, fun h => absurd h hc, .inl rfl⟩

/-- The two comparisons: the root, or a child that is no smaller than the root
and its sibling. -/
theorem larger_children (s : Candidates P I) {n root : Nat} (hroot : root < n) :
    ∃ first big, s.larger below n root (2 * root + 1) = some first ∧
      s.larger below n first (2 * root + 1 + 1) = some big ∧ big < n ∧
      (∀ c, Child root c → c < n → s.prob c ≤ s.prob big) ∧ s.prob root ≤ s.prob big ∧
      (big ≠ root → Child root big) := by
  obtain ⟨first, hfirst, hfn, hroot_le, hleft, hfirst_or⟩ :=
    @larger_spec P I _ s n root (2 * root + 1) hroot
  obtain ⟨big, hbig, hbn, hfirst_le, hright, hbig_or⟩ :=
    @larger_spec P I _ s n first (2 * root + 1 + 1) hfn
  refine ⟨first, big, hfirst, hbig, hbn, ?_, hroot_le.trans hfirst_le, ?_⟩
  · rintro c (rfl | rfl) hc
    · exact (hleft hc).trans hfirst_le
    · exact hright hc
  · intro hne
    rcases hbig_or with rfl | rfl
    · rcases hfirst_or with rfl | rfl
      · exact absurd rfl hne
      · exact .inl rfl
    · exact .inr rfl

/-- **A sift** puts the heap below `lo` in order, moving nothing from `n` on. -/
theorem siftLoop_spec {lo n : Nat} : ∀ {fuel root : Nat} {s : Candidates P I}, root < n →
      n ≤ root + fuel →
    Sinking s.prob lo root n → ∃ σ t, siftLoop below n fuel s root = some t ∧ Rearranged s σ t ∧
      FixesFrom n σ ∧ HeapFrom t.prob lo n
  | 0, root, s, hroot, hfuel, _ => by omega
  | fuel + 1, root, s, hroot, hfuel, hs => by
      obtain ⟨first, big, hfirst, hsecond, hbn, hmax, hge, hchild⟩ := s.larger_children hroot
      unfold siftLoop
      rw [hfirst, Option.bind_eq_bind, Option.bind_some, hsecond, Option.bind_eq_bind,
        Option.bind_some]
      by_cases hbr : big = root
      · rw [if_pos hbr]
        rw [hbr] at hmax
        exact ⟨Equiv.refl Nat, s, rfl, Rearranged.refl s, FixesFrom.refl n, hs.settle hmax⟩
      · rw [if_neg hbr]
        obtain ⟨t, ht, hst⟩ := s.swap_eq hroot hbn
        have hlt := (hchild hbr).lt
        have hsink : Sinking t.prob lo big n := by
          rw [hst.prob]
          exact hs.sink (hchild hbr) hbn hmax hge
        obtain ⟨σ, u, hu, htu, hfix, hheap⟩ :=
          siftLoop_spec hbn (show n ≤ big + fuel by omega) hsink
        refine ⟨_, u, ?_, hst.trans htu, hfix.trans (FixesFrom.swap hroot hbn), hheap⟩
        rw [ht]
        exact hu

theorem tqSift_spec {root n : Nat} {s : Candidates P I} (hroot : root < n)
    (hs : HeapFrom s.prob (root + 1) n) :
    ∃ σ t, s.tqSift below root n = some t ∧ Rearranged s σ t ∧ FixesFrom n σ ∧
      HeapFrom t.prob root n :=
  siftLoop_spec hroot (Nat.le_add_left n root) hs.sinking

/-! ## The three loops -/

/-- **Building the heap**, from the last parent down to the root. -/
theorem build_spec (s : Candidates P I) (n : Nat) :
    ∃ t, forDownM (fun i s => s.tqSift below i n) (n / 2) s = some t ∧
      ∃ σ, Rearranged s σ t ∧ FixesFrom n σ ∧ HeapFrom t.prob 0 n := by
  refine forDownM_inv (I := fun i t => ∃ σ, Rearranged s σ t ∧ FixesFrom n σ ∧
    HeapFrom t.prob i n) ?_ ?_
  · refine ⟨Equiv.refl Nat, Rearranged.refl s, FixesFrom.refl n, fun p c hp hc hcn => ?_⟩
    unfold Child at hc
    omega
  · rintro i hi t ⟨σ, hσ, hfix, hheap⟩
    obtain ⟨τ, u, hu, hτ, hfix', hheap'⟩ := tqSift_spec (show i < n by omega) hheap
    exact ⟨u, hu, τ.trans σ, hσ.trans hτ, hfix'.trans hfix, hheap'⟩

/-- **Taking the elements off**, the largest first. -/
theorem takeOff_spec {s : Candidates P I} {n : Nat} (hs : HeapFrom s.prob 0 n) :
    ∃ t, forDownM (fun i s => popMax below n (i + 1) s) (n - 1) s = some t ∧
      ∃ σ, Rearranged s σ t ∧ FixesFrom n σ ∧ ∀ i j, i ≤ j → j < n → t.prob i ≤ t.prob j := by
  have hloop := @forDownM_inv _ (fun k t => ∃ σ, Rearranged s σ t ∧ FixesFrom n σ ∧
    Sorting t.prob (min n (k + 1)) n) (fun i s => popMax below n (i + 1) s) (n - 1) s ?_ ?_
  · obtain ⟨t, ht, σ, hσ, hfix, hsort⟩ := hloop
    exact ⟨t, ht, σ, hσ, hfix, fun i j hij hj => hsort.ascending (by omega) hij hj⟩
  · refine ⟨Equiv.refl Nat, Rearranged.refl s, FixesFrom.refl n, ?_⟩
    rw [Nat.min_eq_left (show n ≤ n - 1 + 1 by omega)]
    exact hs.sorting
  · rintro k hk t ⟨σ, hσ, hfix, hsort⟩
    rw [Nat.min_eq_right (show k + 1 + 1 ≤ n by omega)] at hsort
    obtain ⟨hsink, hascend, habove⟩ := hsort.pop
    obtain ⟨u, hu, hswap⟩ := t.swap_eq (show 0 < n by omega) (show k + 1 < n by omega)
    rw [← hswap.prob] at hsink hascend habove
    obtain ⟨τ, v, hv, hτ, hfix', hheap⟩ :=
      siftLoop_spec (Nat.succ_pos k) (Nat.le_add_left (k + 1) 0) hsink
    refine ⟨v, ?_, τ.trans ((Equiv.swap 0 (k + 1)).trans σ), (hσ.trans hswap).trans hτ, ?_, ?_⟩
    · unfold popMax
      rw [hu]
      exact hv
    · exact (hfix'.mono (by omega)).trans ((FixesFrom.swap (by omega) (by omega)).trans hfix)
    · rw [Nat.min_eq_right (show k + 1 ≤ n by omega), hτ.prob]
      exact Sorting.push hfix' (hτ.prob ▸ hheap) hascend habove

/-- **Heapsort** of the parallel arrays: it ends with no access outside the `n`
elements, the first array descends, and the pairs are those from before, in
another order; behind them nothing changes. -/
theorem tqHeapsortDesc_sorts (s : Candidates P I) (n : Nat) :
    ∃ t, s.tqHeapsortDesc below n = some t ∧ (∀ i j, i ≤ j → j < n → t.prob j ≤ t.prob i) ∧
      ((List.range n).map fun i => (t.prob i, t.idx i)).Perm
        ((List.range n).map fun i => (s.prob i, s.idx i)) ∧
      ∀ i, n ≤ i → t.prob i = s.prob i ∧ t.idx i = s.idx i := by
  obtain ⟨t₁, ht₁, σ₁, h₁, hfix₁, hheap⟩ := s.build_spec n
  obtain ⟨t₂, ht₂, σ₂, h₂, hfix₂, hascend⟩ := takeOff_spec hheap
  obtain ⟨t₃, ht₃, σ₃, h₃, hfix₃, hturned⟩ := t₂.reverse_spec n
  have hall := (h₁.trans h₂).trans h₃
  have hfix := hfix₃.trans (hfix₂.trans hfix₁)
  generalize σ₃.trans (σ₂.trans σ₁) = σ at hall hfix
  refine ⟨t₃, ?_, ?_, ?_, ?_⟩
  · unfold tqHeapsortDesc
    rw [ht₁, Option.bind_eq_bind, Option.bind_some, ht₂, Option.bind_some]
    exact ht₃
  · intro i j hij hj
    rw [hturned j hj, hturned i (by omega)]
    exact hascend _ _ (by omega) (by omega)
  · rw [hall.prob, hall.idx]
    exact hfix.perm fun i => (s.prob i, s.idx i)
  · intro i hi
    rw [hall.prob, hall.idx, Function.comp_apply, Function.comp_apply, hfix i hi]
    exact ⟨rfl, rfl⟩

end Sorted

example : ((⟨fun i => [3, 1, 3, 2].getD i 0, id⟩ : Candidates Nat Nat).tqHeapsortDesc below 4).map
    (fun t => (List.range 4).map fun i => (t.prob i, t.idx i)) =
    some [(3, 0), (3, 2), (2, 3), (1, 1)] := by
  decide

end Candidates

end TinyLlm
