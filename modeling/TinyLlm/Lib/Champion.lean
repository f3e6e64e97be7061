/-
# `TinyLlm.Lib.Champion` — the best of the candidates seen so far

A loop that keeps the best candidate and lets a later one take its place only
if it is strictly greater.  Candidates carry a score and a value; a round may
have none.

Where the scores are ranked (`Ranks`), a champion that was there before the
loop meets only the champion of the loop (`champion_from`), and the champion
of the loop beats every candidate before it (`champion_found`).  A comparison
that ranks nothing, as with a NaN, has no such rules; but a candidate that
beats all before it makes the champion from before the loop forgotten in any
case (`champion_forgets`).
-/
import TinyLlm.Lib.Loop

namespace Champion

open Loop

variable {S α β : Type*} (gt : S → S → Bool)

/-- The challenger wins against a lower score, or if there is no champion. -/
def challenge (best : Option (S × α)) (c : S × α) : Option (S × α) :=
  if best.all (fun b => gt c.1 b.1) = true then some c else best

/-- The champion after `n` rounds. -/
def champion (cand : Nat → Option (S × α)) (n : Nat) (start : Option (S × α)) : Option (S × α) :=
  forUp n (fun k best => (cand k).elim best (challenge gt best)) start

/-- `gt` is a strict weak order on the scores in `P`. -/
structure Ranks (P : S → Prop) : Prop where
  trans : ∀ a b c, P a → P b → P c → gt a b = true → gt b c = true → gt a c = true
  negTrans : ∀ a b c, P a → P b → P c → gt a b = false → gt b c = false → gt a c = false

theorem challenge_some (b c : S × α) :
    challenge gt (some b) c = if gt c.1 b.1 = true then some c else some b :=
  rfl

/-- Only the scores decide. -/
theorem challenge_map (f : α → β) (best : Option (S × α)) (c : S × α) :
    challenge gt (best.map (Prod.map id f)) (Prod.map id f c) =
      (challenge gt best c).map (Prod.map id f) := by
  cases best with
  | none => rfl
  | some b =>
      rw [Option.map_some, challenge_some, challenge_some]
      show (if gt c.1 b.1 = true then _ else _) = _
      by_cases h : gt c.1 b.1 = true
      · rw [if_pos h, if_pos h]
        rfl
      · rw [if_neg h, if_neg h]
        rfl

theorem champion_map {cand : Nat → Option (S × α)} {cand' : Nat → Option (S × β)} {f : α → β}
    (h : ∀ k, cand' k = (cand k).map (Prod.map id f)) (start : Option (S × α)) : ∀ n,
      champion gt cand' n (start.map (Prod.map id f)) =
      (champion gt cand n start).map (Prod.map id f)
  | 0 => rfl
  | n + 1 => by
      have ih := champion_map h start n
      unfold champion at ih ⊢
      rw [forUp, forUp, ih, h n]
      cases cand n with
      | none => rfl
      | some c => exact challenge_map gt f _ c

/-! ## A candidate that beats all before it -/

section Forgets
variable (cand : Nat → Option (S × α))

/-- The champion was there before the loop or is one of the candidates. -/
theorem champion_start_or_cand (start : Option (S × α)) : ∀ n,
    champion gt cand n start = start ∨ ∃ j < n, champion gt cand n start = cand j
  | 0 => .inl rfl
  | n + 1 => by
      have ih := champion_start_or_cand start n
      unfold champion at ih ⊢
      rw [forUp]
      generalize forUp n (fun k best => (cand k).elim best (challenge gt best)) start = best at ih
      have hold : best = start ∨ ∃ j < n + 1, best = cand j :=
        ih.imp_right fun h => h.imp fun _ hj => ⟨Nat.lt_succ_of_lt hj.1, hj.2⟩
      cases hc : cand n with
      | none => exact hold
      | some c =>
          rw [Option.elim_some, challenge]
          split
          · exact .inr ⟨n, Nat.lt_succ_self n, hc.symm⟩
          · exact hold

variable {gt cand}

/-- **It wins its round**, whoever was champion. -/
theorem champion_wins {start : Option (S × α)} {k : Nat} {d : S × α} (hd : cand k = some d)
    (hstart : ∀ c, start = some c → gt d.1 c.1 = true)
    (hearlier : ∀ j < k, ∀ e, cand j = some e → gt d.1 e.1 = true) :
    champion gt cand (k + 1) start = some d := by
  have hbeaten : ∀ best, champion gt cand k start = some best → gt d.1 best.1 = true := by
    intro best hbest
    rcases champion_start_or_cand gt cand start k with h | ⟨j, hj, h⟩
    · exact hstart best (h.symm.trans hbest)
    · exact hearlier j hj best (h.symm.trans hbest)
  unfold champion at hbeaten ⊢
  rw [forUp, hd, Option.elim_some, challenge]
  refine if_pos ?_
  cases hbest : forUp k (fun k best => (cand k).elim best (challenge gt best)) start with
  | none => rfl
  | some best => exact hbeaten best hbest

/-- **The champion from before the loop is forgotten.** -/
theorem champion_forgets {start : Option (S × α)} {n k : Nat} (hk : k < n) {d : S × α}
    (hd : cand k = some d) (hstart : ∀ c, start = some c → gt d.1 c.1 = true)
    (hearlier : ∀ j < k, ∀ e, cand j = some e → gt d.1 e.1 = true) :
    champion gt cand n start = champion gt cand n none := by
  have hwith := champion_wins hd hstart hearlier
  have hwithout := @champion_wins S α gt cand none k d hd (fun _ h => by cases h) hearlier
  obtain ⟨m, rfl⟩ := Nat.exists_eq_add_of_le (Nat.succ_le_of_lt hk)
  unfold champion at hwith hwithout ⊢
  rw [forUp_add, forUp_add, hwith, hwithout]

end Forgets

section Ranks
variable {gt} {P : S → Prop} {cand : Nat → Option (S × α)}

/-- A champion that the loop found is one of the candidates. -/
theorem champion_mem (hcand : ∀ k c, cand k = some c → P c.1) :
    ∀ n f, champion gt cand n none = some f → P f.1
  | 0, _, h => nomatch h
  | n + 1, f, h => by
      have ih := champion_mem hcand n
      unfold champion at ih h
      rw [forUp] at h
      cases hc : cand n with
      | none =>
          rw [hc] at h
          exact ih f h
      | some c =>
          rw [hc, Option.elim_some, challenge] at h
          split at h
          · obtain rfl : c = f := Option.some.inj h
            exact hcand n c hc
          · exact ih f h

/-- Who beats the champion beats every candidate there was. -/
theorem champion_beats (hR : Ranks gt P) (hcand : ∀ k c, cand k = some c → P c.1) {x : S}
    (hx : P x) : ∀ n, (∀ f, champion gt cand n none = some f → gt x f.1 = true) →
      ∀ j < n, ∀ e, cand j = some e → gt x e.1 = true
  | 0, _, _, hj, _, _ => absurd hj (Nat.not_lt_zero _)
  | n + 1, hbeats, j, hj, e, he => by
      have ih := champion_beats hR hcand hx n
      have hmem := @champion_mem S α gt P cand hcand n
      unfold champion at ih hmem hbeats
      rw [forUp] at hbeats
      generalize forUp n (fun k best => (cand k).elim best (challenge gt best)) none =
        found at ih hmem hbeats
      cases hc : cand n with
      | none =>
          rw [hc] at hbeats
          rcases Nat.lt_succ_iff_lt_or_eq.mp hj with hj | rfl
          · exact ih hbeats j hj e he
          · cases hc.symm.trans he
      | some c =>
          rw [hc] at hbeats
          -- `x` beats the last candidate and whoever was champion before it
          have hboth : gt x c.1 = true ∧ ∀ f, found = some f → gt x f.1 = true := by
            cases found with
            | none => exact ⟨hbeats c rfl, fun _ h => by cases h⟩
            | some f =>
                have hPc := hcand n c hc
                have hPf := hmem f rfl
                rw [Option.elim_some, challenge_some] at hbeats
                by_cases hcf : gt c.1 f.1 = true
                · rw [if_pos hcf] at hbeats
                  have hxc := hbeats c rfl
                  refine ⟨hxc, fun g hg => ?_⟩
                  obtain rfl := Option.some.inj hg
                  exact hR.trans _ _ _ hx hPc hPf hxc hcf
                · rw [if_neg hcf] at hbeats
                  have hxf := hbeats f rfl
                  refine ⟨?_, fun g hg => by rw [← Option.some.inj hg]; exact hxf⟩
                  cases hxc : gt x c.1 with
                  | true => rfl
                  | false =>
                      rw [hR.negTrans _ _ _ hx hPc hPf hxc (Bool.eq_false_iff.mpr hcf)] at hxf
                      exact hxf
          rcases Nat.lt_succ_iff_lt_or_eq.mp hj with hj | rfl
          · exact ih hboth.2 j hj e he
          · obtain rfl := Option.some.inj (hc.symm.trans he)
            exact hboth.1

/-- **The champion beats every candidate before it.** -/
theorem champion_found (hR : Ranks gt P) (hcand : ∀ k c, cand k = some c → P c.1) : ∀ n {f : S × α},
    champion gt cand n none = some f →
      ∃ k < n, cand k = some f ∧ ∀ j < k, ∀ e, cand j = some e → gt f.1 e.1 = true
  | 0, _, h => nomatch h
  | n + 1, f, h => by
      have ih := @champion_found hR hcand n f
      have hbeats := fun hx => @champion_beats S α gt P cand hR hcand f.1 hx n
      unfold champion at ih hbeats h
      rw [forUp] at h
      have hold : _ = some f → ∃ k < n + 1, cand k = some f ∧ ∀ j < k, ∀ e, cand j = some e →
          gt f.1 e.1 = true :=
        fun h => (ih h).imp fun _ hk => ⟨Nat.lt_succ_of_lt hk.1, hk.2⟩
      cases hc : cand n with
      | none =>
          rw [hc] at h
          exact hold h
      | some c =>
          rw [hc, Option.elim_some, challenge] at h
          split at h
          · next hall =>
              obtain rfl := Option.some.inj h
              refine ⟨n, Nat.lt_succ_self n, hc, hbeats (hcand n c hc) fun g hg => ?_⟩
              rw [hg] at hall
              exact hall
          · exact hold h

/-- **A champion from before** stays until the champion of the loop is greater. -/
theorem champion_from (hR : Ranks gt P) (hcand : ∀ k c, cand k = some c → P c.1) {c₀ : S × α}
    (h₀ : P c₀.1) :
    ∀ n, champion gt cand n (some c₀) =
      (champion gt cand n none).elim (some c₀) (challenge gt (some c₀))
  | 0 => rfl
  | n + 1 => by
      have ih := champion_from hR hcand h₀ n
      have hmem := @champion_mem S α gt P cand hcand n
      unfold champion at ih hmem ⊢
      rw [forUp, forUp, ih]
      cases hc : cand n with
      | none => rfl
      | some c =>
          have hPc := hcand n c hc
          generalize forUp n (fun k best => (cand k).elim best (challenge gt best)) none =
            found at hmem
          cases found with
          | none => rfl
          | some f =>
              have hPf := hmem f rfl
              simp only [Option.elim_some, challenge_some]
              -- whether `f` beats `c₀`, and then whether `c` beats `f`
              by_cases hf : gt f.1 c₀.1 = true
              · rw [if_pos hf, challenge_some]
                by_cases hcf : gt c.1 f.1 = true
                · rw [if_pos hcf, Option.elim_some, challenge_some,
                    if_pos (hR.trans _ _ _ hPc hPf h₀ hcf hf)]
                · rw [if_neg hcf, Option.elim_some, challenge_some, if_pos hf]
              · rw [if_neg hf, challenge_some]
                by_cases hcf : gt c.1 f.1 = true
                · rw [if_pos hcf, Option.elim_some, challenge_some]
                · have hc₀ : gt c.1 c₀.1 = false := hR.negTrans _ _ _ hPc hPf h₀
                    (Bool.eq_false_iff.mpr hcf) (Bool.eq_false_iff.mpr hf)
                  rw [if_neg hcf, Option.elim_some, challenge_some, if_neg hf,
                    if_neg (Bool.eq_false_iff.mp hc₀)]

end Ranks

end Champion
