/-
# `TinyLlm.Sem.Corrupt` — `sem_decode` on any bytes

A wire that was cut, damaged or made up is still decoded: the length symbol
names a count, and every target names a token.  So `sem_decode` returns on
every byte string, either the error of the forward pass or of the capacity, or
a message; and no check of `DecOps.checked` ever fails on the way.

BOS is copied from the header, which nothing compares with the vocabulary.  It
is fed to the model only when a token follows, so a message of BOS alone may
hold a token that the model does not have.
-/
import TinyLlm.Ac.Safety
import TinyLlm.Sem.RoundTrip

namespace TinyLlm

variable {F : Type} (M : SemModel F)

namespace DecOps
variable (O : DecOps)

/-- The loop of `sem_decode`. -/
def semDecodeFrom : Nat → List Int → TqAcDec → SemState F →
    Option (Except TqStatus (List Int) × SemState F)
  | 0, toks, _, st => some (.ok toks, st)
  | k + 1, toks, d, st =>
      match semForward M st.rt (toks.getLastD 0) (toks.length - 1) with
      | (.ok, rt) => do
          let (next, d, pm) ← O.token M.gt M.deltaQ16 d st.pm rt.logits
          match next with
          | .ok next => semDecodeFrom k (toks ++ [(next : Int)]) d ⟨rt, pm⟩
          | .error rc => some (.error rc, ⟨rt, pm⟩)
      | (rc, rt) => some (.error rc, { st with rt := rt })

/-- `sem_decode`. -/
def semDecode (st : SemState F) (wire : List UInt8) (max : Nat) :
    Option (Except TqStatus (List Int) × SemState F) := do
  let d := tqAcDecInit wire
  let (target, d) ← O.target d tqAcTot
  let want := (target / semLenFreq).toNat
  let d ← O.update d (UInt32.ofNat want * semLenFreq) semLenFreq
  if want + 1 > max then some (.error .errNomem, st)
  else O.semDecodeFrom M want [M.bos] d st

end DecOps

/-- The plain calls are the code. -/
theorem plain_semDecodeFrom : ∀ (k : Nat) (toks : List Int) (d : TqAcDec) (st : SemState F),
    DecOps.plain.semDecodeFrom M k toks d st = semDecodeFrom M k toks d st
  | 0, _, _, _ => rfl
  | k + 1, toks, d, st => by
      rw [DecOps.semDecodeFrom, semDecodeFrom]
      rcases semForward M st.rt (toks.getLastD 0) (toks.length - 1) with ⟨rc, rt⟩
      cases rc with
      | ok =>
          dsimp only
          rw [plain_token]
          rcases tqAcDecToken M.gt M.deltaQ16 d st.pm rt.logits with _ | ⟨next, d', pm⟩
          · rfl
          · cases next with
            | ok next => exact plain_semDecodeFrom k _ _ _
            | error rc => rfl
      | _ => rfl

theorem plain_semDecode (st : SemState F) (wire : List UInt8) (max : Nat) :
    DecOps.plain.semDecode M st wire max = semDecode M st wire max := by
  unfold DecOps.semDecode semDecode
  simp only [plain_semDecodeFrom]
  rfl

/-! ## What comes out -/

/-- What `sem_decode` may return: an error that is not a truncated token, or BOS
and at most 255 tokens of the vocabulary. -/
def Plausible (max : Nat) : Except TqStatus (List Int) → Prop
  | .error rc => rc ≠ .ok ∧ rc ≠ .errTruncated
  | .ok toks => 1 ≤ toks.length ∧ toks.length ≤ 256 ∧ toks.length ≤ max ∧ toks.head? = some M.bos ∧
      (∀ t ∈ toks.tail, 0 ≤ t ∧ t < M.vocab.size) ∧
      (2 ≤ toks.length → 0 ≤ M.bos ∧ M.bos < M.vocab.size)

/-- A forward pass refuses the token or the position, or runs. -/
theorem semForward_cases (rt : SemRuntime F) (tok : Int) (pos : Nat) :
    (∃ rt', semForward M rt tok pos = (.errRange, rt')) ∨
      (0 ≤ tok ∧ tok < M.vocab.size) ∧ ∃ rt', semForward M rt tok pos = (.ok, rt') := by
  unfold semForward
  split
  · exact .inl ⟨rt, rfl⟩
  · next hr =>
      split
      · exact .inl ⟨rt, rfl⟩
      · exact .inr ⟨by omega, _, rfl⟩

/-- **The loop** returns with every check on, and extends the tokens it was given. -/
theorem semDecodeFrom_safe (max : Nat) : ∀ (k : Nat) {toks : List Int} {d : TqAcDec}
    {st : SemState F}, 2 ^ 24 ≤ d.range.toNat → st.pm.For M.vocab →
    toks.length + k ≤ 256 → toks.length + k ≤ max → Plausible M max (.ok toks) →
    ∃ r st', DecOps.checked.semDecodeFrom M k toks d st = some (r, st') ∧
      semDecodeFrom M k toks d st = some (r, st') ∧ Plausible M max r := by
  intro k
  induction k with
  | zero => intro toks d st _ _ _ _ h; exact ⟨.ok toks, st, rfl, rfl, h⟩
  | succ k ih =>
      intro toks d st hd hpm hlen hmax hplausible
      obtain ⟨hpos, -, -, hhead, htail, hbos⟩ := hplausible
      rcases semForward_cases M st.rt (toks.getLastD 0) (toks.length - 1) with
        ⟨rt, hrt⟩ | ⟨htok, rt, hrt⟩
      · refine ⟨.error .errRange, { st with rt := rt }, ?_, ?_, nofun, nofun⟩
        · rw [DecOps.semDecodeFrom, hrt]
        · rw [semDecodeFrom, hrt]
      · obtain ⟨next, d', pm, hchecked, hplain, hnext, hpm', hd'⟩ :=
          token_safe M.gt M.deltaQ16 rt.logits hd hpm
        have hmem : ∀ t ∈ (toks ++ [(next : Int)]).tail, 0 ≤ t ∧ t < M.vocab.size := by
          intro t ht
          rw [List.tail_append_of_ne_nil (List.length_pos_iff.mp hpos)] at ht
          rcases List.mem_append.mp ht with ht | ht
          · exact htail t ht
          · rw [List.mem_singleton] at ht
            omega
        have hbos' : 0 ≤ M.bos ∧ M.bos < M.vocab.size := by
          rcases Nat.lt_or_ge 1 toks.length with hlt | hge
          · exact hbos hlt
          · -- the token that was just fed is BOS itself
            obtain ⟨t, rfl⟩ := List.length_eq_one_iff.mp (Nat.le_antisymm hge hpos)
            cases hhead
            exact htok
        obtain ⟨r, st', hrc, hrp, hr⟩ := @ih (toks ++ [(next : Int)]) d' ⟨rt, pm⟩ hd' hpm'
          (by rw [List.length_append, List.length_singleton]; omega)
          (by rw [List.length_append, List.length_singleton]; omega)
          ⟨by rw [List.length_append]; omega,
            by rw [List.length_append, List.length_singleton]; omega,
            by rw [List.length_append, List.length_singleton]; omega,
            by rw [List.head?_append, hhead]; rfl, hmem, fun _ => hbos'⟩
        refine ⟨r, st', ?_, ?_, hr⟩
        · rw [DecOps.semDecodeFrom, hrt]
          simp only [hchecked, Option.bind_eq_bind, Option.bind_some]
          exact hrc
        · rw [semDecodeFrom, hrt]
          simp only [hplain, Option.bind_eq_bind, Option.bind_some]
          exact hrp

/-- **Corrupt wires.**  On every byte string `sem_decode` returns, no check of
`DecOps.checked` fails on the way, and what it returns is plausible. -/
theorem semDecode_safe (st : SemState F) (hpm : st.pm.For M.vocab) (wire : List UInt8) (max : Nat) :
    ∃ r st', DecOps.checked.semDecode M st wire max = some (r, st') ∧
      semDecode M st wire max = some (r, st') ∧ Plausible M max r := by
  have hrange : (tqAcDecInit wire).range = 0xFFFFFFFF := (tqAcDecLoad_iterate
    { buf := wire, pos := 0, range := 0xFFFFFFFF, code := 0, r := 0, starved := false } rfl rfl
    4 le_rfl).2.2.2.2
  have hfl : 2 ^ 24 ≤ (tqAcDecInit wire).range.toNat := by rw [hrange]; decide
  obtain ⟨target, r, htarget, hlt, hcode, hr⟩ := tqAcDecTarget_safe hfl
  have hwant : (target / semLenFreq).toNat = target.toNat / 256 := by
    rw [UInt32.toNat_div, toNat_semLenFreq]
  have hcum := toNat_lenCum (k := target.toNat / 256)
    (by show target.toNat / 256 < 256; omega)
  obtain ⟨d, hchecked, hplain, hd⟩ := @tqAcDecUpdate_safe { tqAcDecInit wire with r := r } _
    (UInt32.ofNat (target.toNat / 256) * semLenFreq) semLenFreq hr hfl
    (tqAcDecInit wire).range.toNat_lt
    (by
      rw [hcum]
      exact (Nat.mul_le_mul_right _ (Nat.div_mul_le_self _ _)).trans hcode)
    (by decide) (by decide)
  have hct : DecOps.checked.target (tqAcDecInit wire) tqAcTot
      = some (target, { tqAcDecInit wire with r := r }) := (if_pos hfl).trans htarget
  rcases Nat.lt_or_ge max (target.toNat / 256 + 1) with hbig | hfit
  · refine ⟨.error .errNomem, st, ?_, ?_, by decide, by decide⟩
    · simp only [DecOps.semDecode, Option.bind_eq_bind, hct, Option.bind_some, hwant, hchecked,
        if_pos hbig]
    · simp only [semDecode, Option.bind_eq_bind, htarget, Option.bind_some, hwant, hplain,
        if_pos hbig]
  · obtain ⟨res, st', hrc, hrp, hres⟩ := @semDecodeFrom_safe F M max (target.toNat / 256)
      [M.bos] d st hd hpm (by rw [List.length_singleton]; omega)
      (by rw [List.length_singleton]; omega)
      ⟨Nat.le_refl 1, show 1 ≤ 256 by decide, by rw [List.length_singleton]; omega, rfl,
        List.forall_mem_nil _, fun h => absurd h (show ¬ 2 ≤ 1 by decide)⟩
    have hfit' : ¬ max < target.toNat / 256 + 1 := Nat.not_lt_of_le hfit
    refine ⟨res, st', ?_, ?_, hres⟩
    · simp only [DecOps.semDecode, Option.bind_eq_bind, hct, Option.bind_some, hwant, hchecked,
        gt_iff_lt, if_neg hfit']
      exact hrc
    · simp only [semDecode, Option.bind_eq_bind, htarget, Option.bind_some, hwant, hplain,
        gt_iff_lt, if_neg hfit']
      exact hrp

/-- A made-up wire of two bytes over a two-token vocabulary. -/
theorem semDecode_safe_two :
    ∃ r st',
      DecOps.checked.semDecode (F := Unit) ⟨⟨2, by decide, by decide⟩, 1, fun _ _ => (),
          fun _ _ => false, fun _ _ => 0⟩
        ⟨⟨8, fun _ => 0, fun _ => ()⟩, Vocab.model ⟨2, by decide, by decide⟩⟩ [2, 255] 16
        = some (r, st') ∧
      semDecode (F := Unit) ⟨⟨2, by decide, by decide⟩, 1, fun _ _ => (), fun _ _ => false,
          fun _ _ => 0⟩
        ⟨⟨8, fun _ => 0, fun _ => ()⟩, Vocab.model ⟨2, by decide, by decide⟩⟩ [2, 255] 16
        = some (r, st') ∧
      Plausible (F := Unit) ⟨⟨2, by decide, by decide⟩, 1, fun _ _ => (), fun _ _ => false,
        fun _ _ => 0⟩ 16 r :=
  semDecode_safe (F := Unit)
    ⟨⟨2, by decide, by decide⟩, 1, fun _ _ => (), fun _ _ => false, fun _ _ => 0⟩
    ⟨⟨8, fun _ => 0, fun _ => ()⟩, Vocab.model ⟨2, by decide, by decide⟩⟩ (Vocab.model_for _)
    [2, 255] 16

/-- A header whose BOS is not in the vocabulary: the empty wire decodes to it. -/
theorem semDecode_bos_outside :
    ¬ ∀ (M : SemModel Unit) (st : SemState Unit), st.pm.For M.vocab →
      ∀ (wire : List UInt8) (max : Nat), 1 ≤ max → ∀ (toks : List Int) (st' : SemState Unit),
        semDecode M st wire max = some (.ok toks, st') → ∀ t ∈ toks, 0 ≤ t ∧ t < M.vocab.size := by
  intro h
  have hbad := h ⟨⟨2, by decide, by decide⟩, 5, fun _ _ => (), fun _ _ => false, fun _ _ => 0⟩
    ⟨⟨8, fun _ => 0, fun _ => ()⟩, Vocab.model ⟨2, by decide, by decide⟩⟩ (Vocab.model_for _)
    [] 1 (Nat.le_refl 1) [5] _ rfl 5 (List.mem_singleton_self 5)
  exact absurd hbad.2 (by decide)

end TinyLlm
