/-
# `TinyLlm.Lib.Bpe` — byte pair encoding

Adjacent symbols join to a symbol with a score, or do not.  A round joins the
adjacent pair of the best score, the first of equal ones, and the rounds end
when no pair joins.  The alphabet, the joins and the comparison of scores are
parameters.

The one question answered here is what a symbol does that is put before all
others.  It stands by in a round where it does not join, or where a later pair
outdoes it (`Outdone`), and if it is outdone in every round the others are
merged as without it (`rounds_cons`).  Where the scores are ranked and joining
adds up sizes, only then (`outdone_of_rounds`).

A map of the alphabet that commutes with joining commutes with the rounds.
-/
import TinyLlm.Lib.Champion

namespace Bpe

open Loop Champion

section Rounds
variable {S σ : Type*} (gt : S → S → Bool) (join : σ → σ → Option (S × σ))

/-- What the symbols at `k` and `k + 1` join to, with the place. -/
def pair (xs : List σ) (k : Nat) : Option (S × σ × Nat) :=
  match xs[k]?, xs[k + 1]? with
  | some a, some b => (join a b).map fun c => (c.1, c.2, k)
  | _, _ => none

/-- The pair of the best score. -/
def best (xs : List σ) : Option (S × σ × Nat) :=
  champion gt (pair join xs) (xs.length - 1) none

/-- The symbols with the pair at `k` replaced. -/
def merge (xs : List σ) (k : Nat) (y : σ) : List σ :=
  xs.take k ++ y :: xs.drop (k + 2)

/-- At most `n` rounds. -/
def rounds : Nat → List σ → List σ
  | 0, xs => xs
  | n + 1, xs =>
      match best gt join xs with
      | none => xs
      | some (_, y, k) => rounds n (merge xs k y)

/-- A pair, as it is numbered with one symbol more before it. -/
def shifted (c : Option (S × σ × Nat)) : Option (S × σ × Nat) :=
  c.map (Prod.map id fun at_ => (at_.1, at_.2 + 1))

/-- **Outdone.**  If `b` joins with the first symbol, a later pair has a higher
score, higher than every pair before it as well. -/
def Outdone (b : σ) (xs : List σ) : Prop :=
  ∀ a ∈ xs.head?, ∀ c ∈ join b a, ∃ k < xs.length, ∃ d ∈ pair join xs k,
    gt d.1 c.1 = true ∧ ∀ j < k, ∀ e ∈ pair join xs j, gt d.1 e.1 = true

instance (b : σ) (xs : List σ) : Decidable (Outdone gt join b xs) := by
  unfold Outdone
  infer_instance

/-! ## Pairs -/

theorem pair_cons (b : σ) (xs : List σ) (k : Nat) :
    pair join (b :: xs) (k + 1) = shifted (pair join xs k) := by
  unfold pair shifted
  rw [List.getElem?_cons_succ, List.getElem?_cons_succ]
  cases xs[k]? with
  | none => rfl
  | some a =>
      cases xs[k + 1]? with
      | none => rfl
      | some b =>
          show (join a b).map _ = ((join a b).map _).map _
          rw [Option.map_map]
          rfl

/-- A pair has two symbols that join. -/
theorem pair_some {xs : List σ} {k : Nat} {c : S × σ × Nat} (h : pair join xs k = some c) :
    ∃ a b, xs[k]? = some a ∧ xs[k + 1]? = some b ∧ join a b = some (c.1, c.2.1) ∧ c.2.2 = k := by
  unfold pair at h
  split at h
  · next a b ha hb =>
      obtain ⟨d, hd, rfl⟩ := Option.map_eq_some_iff.mp h
      exact ⟨a, b, ha, hb, hd, rfl⟩
  · cases h

theorem pair_lt {xs : List σ} {k : Nat} {c : S × σ × Nat} (h : pair join xs k = some c) :
    k + 1 < xs.length := by
  obtain ⟨_, _, -, hb, -, -⟩ := pair_some join h
  exact (List.getElem?_eq_some_iff.mp hb).1

/-- The best pair is one of the pairs. -/
theorem best_some {xs : List σ} {c : S × σ × Nat} (h : best gt join xs = some c) :
    pair join xs c.2.2 = some c := by
  rcases champion_start_or_cand gt (pair join xs) none (xs.length - 1) with heq | ⟨j, -, heq⟩
  · cases heq.symm.trans h
  · have hj := heq.symm.trans h
    obtain ⟨-, -, -, -, -, rfl⟩ := pair_some join hj
    exact hj

/-- Where nothing joins the rounds are over. -/
theorem rounds_done {xs : List σ} (h : best gt join xs = none) : ∀ n, rounds gt join n xs = xs
  | 0 => rfl
  | n + 1 => by rw [rounds, h]

theorem length_merge {xs : List σ} {s : S} {y : σ} {k : Nat}
    (h : best gt join xs = some (s, y, k)) : (merge xs k y).length + 1 = xs.length := by
  have hk : k + 1 < xs.length := pair_lt join (best_some gt join h)
  rw [merge, List.length_append, List.length_take, List.length_cons, List.length_drop]
  omega

theorem length_rounds_le : ∀ (n : Nat) (xs : List σ), (rounds gt join n xs).length ≤ xs.length
  | 0, _ => Nat.le_refl _
  | n + 1, xs => by
      rw [rounds]
      cases hbest : best gt join xs with
      | none => exact Nat.le_refl _
      | some c =>
          obtain ⟨s, y, k⟩ := c
          have hshort := length_merge gt join hbest
          have hrest := length_rounds_le n (merge xs k y)
          show (rounds gt join n (merge xs k y)).length ≤ xs.length
          omega

/-- What holds of the symbols, and of what neighbours join to, holds in every round. -/
theorem rounds_all {P : σ → Prop} : ∀ (n : Nat) {xs : List σ}, (∀ x ∈ xs, P x) →
    (∀ i k a b c, (rounds gt join i xs)[k]? = some a → (rounds gt join i xs)[k + 1]? = some b →
      join a b = some c → P c.2) → ∀ x ∈ rounds gt join n xs, P x := by
  intro n
  induction n with
  | zero => exact fun hxs _ => hxs
  | succ n ih =>
      intro xs hxs hjoin
      rw [rounds]
      cases hbest : best gt join xs with
      | none => exact hxs
      | some c =>
          obtain ⟨s, y, k⟩ := c
          have hlater := fun i => hjoin (i + 1)
          simp only [rounds, hbest] at hlater
          obtain ⟨a, b, ha, hb, hc, -⟩ := pair_some join (best_some gt join hbest)
          refine ih (fun x hx => ?_) hlater
          rcases List.mem_append.mp hx with hx | hx
          · exact hxs x (List.mem_of_mem_take hx)
          · rcases List.mem_cons.mp hx with rfl | hx
            · exact hjoin 0 k a b _ ha hb hc
            · exact hxs x (List.mem_of_mem_drop hx)

/-- The first pair with `b`, and then the pairs of the others. -/
theorem best_cons_eq (b a : σ) (xs : List σ) :
    best gt join (b :: a :: xs) =
      champion gt (fun k => shifted (pair join (a :: xs) k)) xs.length
      (pair join (b :: a :: xs) 0) := by
  have hstart : champion gt (pair join (b :: a :: xs)) 1 none = pair join (b :: a :: xs) 0 := by
    unfold champion
    rw [forUp, forUp]
    cases pair join (b :: a :: xs) 0 <;> rfl
  have hlen : (b :: a :: xs).length - 1 = 1 + xs.length := Nat.add_comm _ _
  unfold champion at hstart
  unfold best champion
  rw [hlen, forUp_add, hstart]
  refine forUp_congr _ fun k _ c => ?_
  rw [Nat.add_comm, pair_cons]

theorem champion_shifted (xs : List σ) (n : Nat) :
    champion gt (fun k => shifted (pair join xs k)) n none =
      shifted (champion gt (pair join xs) n none) :=
  champion_map gt (fun _ => rfl) none n

/-! ## A symbol before all others -/

/-- **Outdone, it stands by.** -/
theorem best_cons {b : σ} {xs : List σ} (h : Outdone gt join b xs) :
    best gt join (b :: xs) = shifted (best gt join xs) := by
  cases xs with
  | nil => rfl
  | cons a xs =>
      rw [best_cons_eq]
      refine Eq.trans ?_ (champion_shifted gt join (a :: xs) xs.length)
      cases hfirst : pair join (b :: a :: xs) 0 with
      | none => rfl
      | some c =>
          obtain ⟨_, _, hb, ha, hc, -⟩ := pair_some join hfirst
          cases hb
          cases ha
          obtain ⟨k, -, d, hd, hgt, hearlier⟩ := h a rfl _ hc
          have hlast := pair_lt join hd
          rw [List.length_cons] at hlast
          refine champion_forgets (Nat.lt_of_succ_lt_succ hlast)
            (d := (d.1, d.2.1, d.2.2 + 1)) ?_ ?_ ?_
          · show shifted _ = _
            rw [hd]
            rfl
          · intro e he
            cases he
            exact hgt
          · intro j hj e he
            obtain ⟨e', he', rfl⟩ := Option.map_eq_some_iff.mp he
            exact hearlier j hj e' he'

/-- **The rounds stand as without it**, if it is outdone in all of them. -/
theorem rounds_cons {b : σ} :
    ∀ (n : Nat) {xs : List σ}, (∀ i, Outdone gt join b (rounds gt join i xs)) →
    rounds gt join n (b :: xs) = b :: rounds gt join n xs := by
  intro n
  induction n with
  | zero => exact fun _ => rfl
  | succ n ih =>
      intro xs h
      have hlater := fun i => h (i + 1)
      simp only [rounds] at hlater
      have hnow : Outdone gt join b xs := h 0
      rw [rounds, rounds, best_cons gt join hnow]
      cases hbest : best gt join xs with
      | none => rfl
      | some c =>
          rw [hbest] at hlater
          exact ih hlater

/-- With ranked scores it is outdone or joins. -/
theorem outdone_or_joins {P : S → Prop} (hR : Ranks gt P)
    (hP : ∀ a b c, join a b = some c → P c.1) (b : σ) (xs : List σ) :
    Outdone gt join b xs ∨ ∃ s y, best gt join (b :: xs) = some (s, y, 0) := by
  cases xs with
  | nil =>
      left
      intro a ha
      cases ha
  | cons a xs =>
      have hscore : ∀ (ys : List σ) k c, pair join ys k = some c → P c.1 := by
        intro ys k c h
        obtain ⟨a, b, -, -, hc, -⟩ := pair_some join h
        exact hP a b _ hc
      cases hc : join b a with
      | none =>
          left
          intro a' ha' c hc'
          cases ha'
          cases hc.symm.trans hc'
      | some c =>
          have hfirst : pair join (b :: a :: xs) 0 = some (c.1, c.2, 0) := by
            show (join b a).map _ = _
            rw [hc]
            rfl
          have hcand : ∀ k e, shifted (pair join (a :: xs) k) = some e → P e.1 := by
            intro k e h
            rw [← pair_cons join b] at h
            exact hscore _ _ _ h
          have hbest := best_cons_eq gt join b a xs
          rw [hfirst, champion_from hR hcand (hP _ _ _ hc), champion_shifted] at hbest
          cases hfound : champion gt (pair join (a :: xs)) xs.length none with
          | none =>
              rw [hfound] at hbest
              exact .inr ⟨_, _, hbest⟩
          | some f =>
              rw [hfound] at hbest
              have hbest : best gt join (b :: a :: xs) =
                  challenge gt (some (c.1, c.2, 0)) (f.1, f.2.1, f.2.2 + 1) :=
                hbest
              rw [challenge_some] at hbest
              by_cases hgt : gt f.1 c.1 = true
              · left
                obtain ⟨k, hk, hfk, hearlier⟩ := champion_found hR (hscore (a :: xs)) _ hfound
                intro a' ha' c' hc'
                cases ha'
                obtain rfl := Option.some.inj (hc.symm.trans hc')
                exact ⟨k, Nat.lt_succ_of_lt hk, f, hfk, hgt, hearlier⟩
              · rw [if_neg hgt] at hbest
                exact .inr ⟨_, _, hbest⟩

end Rounds

/-! ## Sizes -/

section Sizes
variable {S σ : Type*} (gt : S → S → Bool) {join : σ → σ → Option (S × σ)} {size : σ → Nat}
  (hsize : ∀ a b c, join a b = some c → size c.2 = size a + size b)
include hsize

/-- The first symbol only grows. -/
theorem rounds_first : ∀ (n : Nat) (x : σ) (xs : List σ),
    ∃ y ys, rounds gt join n (x :: xs) = y :: ys ∧ size x ≤ size y := by
  intro n
  induction n with
  | zero => exact fun x xs => ⟨x, xs, rfl, Nat.le_refl _⟩
  | succ n ih =>
      intro x xs
      rw [rounds]
      cases hbest : best gt join (x :: xs) with
      | none => exact ⟨x, xs, rfl, Nat.le_refl _⟩
      | some c =>
          obtain ⟨s, z, k⟩ := c
          cases k with
          | zero =>
              obtain ⟨a, b, ha, -, hc, -⟩ := pair_some join (best_some gt join hbest)
              obtain rfl : x = a := Option.some.inj ha
              obtain ⟨y, ys, heq, hle⟩ := ih z ((x :: xs).drop 2)
              refine ⟨y, ys, heq, Nat.le_trans ?_ hle⟩
              have hz : size z = size x + size b := hsize _ _ _ hc
              rw [hz]
              exact Nat.le_add_right _ _
          | succ k => exact ih x _

/-- **Once it joined** it is not the first symbol any more. -/
theorem rounds_joined {b : σ} {xs : List σ} (hpos : ∀ x ∈ xs, 0 < size x) {s : S} {y : σ}
    (h : best gt join (b :: xs) = some (s, y, 0)) (n : Nat) (rest : List σ) :
    rounds gt join (n + 1) (b :: xs) ≠ b :: rest := by
  obtain ⟨_, a, hb, ha, hc, -⟩ := pair_some join (best_some gt join h)
  cases hb
  have hgrown : size y = size b + size a := hsize _ _ _ hc
  have ha : xs[0]? = some a := ha
  have hpos : 0 < size a := hpos a (List.mem_of_getElem? ha)
  obtain ⟨z, zs, heq, hle⟩ := rounds_first gt hsize n y ((b :: xs).drop 2)
  intro hall
  rw [rounds, h] at hall
  obtain rfl : z = b := (List.cons.inj (heq.symm.trans hall)).1
  omega

theorem merge_pos {xs : List σ} (hpos : ∀ x ∈ xs, 0 < size x) {s : S} {y : σ} {k : Nat}
    (h : best gt join xs = some (s, y, k)) : ∀ x ∈ merge xs k y, 0 < size x := by
  obtain ⟨a, b, ha, -, hc, -⟩ := pair_some join (best_some gt join h)
  intro x hx
  rcases List.mem_append.mp hx with hx | hx
  · exact hpos x (List.mem_of_mem_take hx)
  · rcases List.mem_cons.mp hx with rfl | hx
    · have hx : size x = size a + size b := hsize _ _ _ hc
      have ha : 0 < size a := hpos a (List.mem_of_getElem? ha)
      omega
    · exact hpos x (List.mem_of_mem_drop hx)

theorem rounds_pos : ∀ (n : Nat) {xs : List σ}, (∀ x ∈ xs, 0 < size x) →
    ∀ x ∈ rounds gt join n xs, 0 < size x := by
  intro n
  induction n with
  | zero => exact fun hpos => hpos
  | succ n ih =>
      intro xs hpos
      rw [rounds]
      cases hbest : best gt join xs with
      | none => exact hpos
      | some c => exact ih (merge_pos gt hsize hpos hbest)

/-- **Only if it is outdone in every round** are the others merged as without
it: the scores are ranked, and there are rounds enough. -/
theorem outdone_of_rounds {P : S → Prop} (hR : Ranks gt P)
    (hP : ∀ a b c, join a b = some c → P c.1) {b : σ} :
    ∀ (n : Nat) {xs : List σ}, xs.length < n → (∀ x ∈ xs, 0 < size x) →
      rounds gt join n (b :: xs) = b :: rounds gt join n xs →
      ∀ i, Outdone gt join b (rounds gt join i xs) := by
  intro n
  induction n with
  | zero => exact fun h => absurd h (Nat.not_lt_zero _)
  | succ n ih =>
      intro xs hlen hpos hlaw
      rcases outdone_or_joins gt join hR hP b xs with hnow | ⟨s, y, hjoins⟩
      · intro i
        cases i with
        | zero => exact hnow
        | succ i =>
            rw [rounds, rounds, best_cons gt join hnow] at hlaw
            rw [rounds]
            cases hbest : best gt join xs with
            | none => exact hnow
            | some c =>
                obtain ⟨s, y, k⟩ := c
                rw [hbest] at hlaw
                have hshort := length_merge gt join hbest
                exact ih (by omega) (merge_pos gt hsize hpos hbest) hlaw i
      · exact absurd hlaw (rounds_joined gt hsize hpos hjoins n _)

end Sizes

/-! ## Another alphabet -/

section Map
variable {S σ τ : Type*} (gt : S → S → Bool) {join : σ → σ → Option (S × σ)}
    {join' : τ → τ → Option (S × τ)}
  {f : σ → τ} (hf : ∀ a b, join' (f a) (f b) = (join a b).map (Prod.map id f))
include hf

theorem pair_map (xs : List σ) (k : Nat) :
    pair join' (xs.map f) k = (pair join xs k).map (Prod.map id (Prod.map f id)) := by
  unfold pair
  rw [List.getElem?_map, List.getElem?_map]
  cases xs[k]? with
  | none => rfl
  | some a =>
      cases xs[k + 1]? with
      | none => rfl
      | some b =>
          show (join' (f a) (f b)).map _ = ((join a b).map _).map _
          rw [hf, Option.map_map, Option.map_map]
          rfl

theorem best_map (xs : List σ) :
    best gt join' (xs.map f) = (best gt join xs).map (Prod.map id (Prod.map f id)) := by
  unfold best
  rw [List.length_map]
  exact champion_map gt (pair_map hf xs) none _

theorem rounds_map :
    ∀ (n : Nat) (xs : List σ), rounds gt join' n (xs.map f) = (rounds gt join n xs).map f := by
  intro n
  induction n with
  | zero => exact fun _ => rfl
  | succ n ih =>
      intro xs
      rw [rounds, rounds, best_map gt hf]
      cases best gt join xs with
      | none => rfl
      | some c =>
          obtain ⟨s, y, k⟩ := c
          show rounds gt join' n (merge (xs.map f) k (f y)) = _
          rw [← ih, merge, merge, List.map_append, List.map_cons, List.map_take, List.map_drop]

theorem outdone_map (b : σ) (xs : List σ) :
    Outdone gt join' (f b) (xs.map f) ↔ Outdone gt join b xs := by
  unfold Outdone
  simp only [Option.mem_def, List.head?_map, Option.map_eq_some_iff, List.length_map,
    pair_map hf, hf, forall_exists_index, and_imp, forall_apply_eq_imp_iff₂,
    exists_exists_and_eq_and, Prod.map_fst, id_eq]

end Map

end Bpe
