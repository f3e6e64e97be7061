/-
# `TinyLlm.Ac.Length` — what a message costs

The width of the interval is the budget.  A symbol multiplies it by
`freq / tot`, less what truncating `range / tot` loses, which is at most one
part in 256 because the range is at least `2 ^ 24` and the total at most
`2 ^ 16`; a shift multiplies it by 256 and adds a digit.  The range never
leaves 32 bits, so a message of `k` symbols has at most

    256 ^ (digits - 4)  ≤  (∏ tot / ∏ freq) * (256 / 255) ^ k

digits, and the flush drops three of them (`encodeTriples_length`).

The flush takes the first multiple of `2 ^ 24`, which is not always the
point with the most zeros: `Shortest` says when it is
(`encodeTriples_shortest`).
-/
import TinyLlm.Lib.Bytes
import TinyLlm.Ac.Message

namespace TinyLlm

open IntervalCoding

/-! ## The charge of a message -/

/-- The product of the frequencies. -/
def freqProd (msg : List AcTriple) : Nat := (msg.map fun t => t.freq.toNat).prod

/-- The product of the totals. -/
def totProd (msg : List AcTriple) : Nat := (msg.map fun t => t.tot.toNat).prod

theorem freqProd_cons (t : AcTriple) (msg : List AcTriple) :
    freqProd (t :: msg) = t.freq.toNat * freqProd msg := List.prod_cons

theorem totProd_cons (t : AcTriple) (msg : List AcTriple) :
    totProd (t :: msg) = t.tot.toNat * totProd msg := List.prod_cons

theorem floor_code {s : Iv} (hs : 2 ^ 24 ≤ s.width) (t : AcTriple) :
    2 ^ 24 ≤ (s.code 256 (2 ^ 24) 3 t.slot).width := by
  refine Iv.top_le_renorm_width 3 ?_
  have hwide : t.slot.tot ≤ s.width := t.tot_le.trans (Nat.le_trans (by decide) hs)
  have hpos := t.freq_pos.trans (Iv.freq_le_narrow_width hwide)
  calc 2 ^ 24 ≤ 1 * 256 ^ 3 := by decide
    _ ≤ (s.narrow t.slot).width * 256 ^ 3 := Nat.mul_le_mul_right _ hpos

/-- **One symbol** costs its charge and one part in 256. -/
theorem code_charge {s : Iv} (hs : 2 ^ 24 ≤ s.width) (t : AcTriple) :
    255 * s.width * t.freq.toNat * 256 ^ (s.code 256 (2 ^ 24) 3 t.slot).digits
      ≤ (s.code 256 (2 ^ 24) 3 t.slot).width * t.tot.toNat * 256 * 256 ^ s.digits := by
  have hpart : 255 * s.width ≤ s.width / t.tot.toNat * t.tot.toNat * 256 :=
    Iv.part_scale (c := 256) t.slot.tot_pos (Nat.le_trans (Nat.mul_le_mul_left 256 t.tot_le) hs)
  have hscale : (s.narrow t.slot).width * 256 ^ (s.code 256 (2 ^ 24) 3 t.slot).digits
      = (s.code 256 (2 ^ 24) 3 t.slot).width * 256 ^ s.digits :=
    Iv.renorm_scale (by decide) 3 (s.narrow t.slot)
  have hwidth : (s.narrow t.slot).width = s.width / t.tot.toNat * t.freq.toNat := rfl
  generalize s.code 256 (2 ^ 24) 3 t.slot = s' at hscale ⊢
  calc 255 * s.width * t.freq.toNat * 256 ^ s'.digits
      ≤ s.width / t.tot.toNat * t.tot.toNat * 256 * t.freq.toNat * 256 ^ s'.digits :=
        Nat.mul_le_mul_right _ (Nat.mul_le_mul_right _ hpart)
    _ = (s.narrow t.slot).width * 256 ^ s'.digits * (t.tot.toNat * 256) := by rw [hwidth]; ring
    _ = s'.width * t.tot.toNat * 256 * 256 ^ s.digits := by rw [hscale]; ring

/-- **A message** costs the charges of its symbols and one part in 256 for each. -/
theorem interval_charge : ∀ (msg : List AcTriple) {s : Iv}, 2 ^ 24 ≤ s.width →
    255 ^ msg.length * s.width * freqProd msg * 256 ^ (tripleInterval s msg).digits
      ≤ (tripleInterval s msg).width * totProd msg * 256 ^ msg.length * 256 ^ s.digits := by
  intro msg
  induction msg with
  | nil => intro s _; simp [freqProd, totProd, tripleInterval]
  | cons t msg ih =>
      intro s hs
      have hstep := code_charge hs t
      have hrest := ih (floor_code hs t)
      have hfold : tripleInterval s (t :: msg) =
          tripleInterval (s.code 256 (2 ^ 24) 3 t.slot) msg := rfl
      rw [hfold, List.length_cons, freqProd_cons, totProd_cons]
      generalize s.code 256 (2 ^ 24) 3 t.slot = s₁ at hstep hrest ⊢
      generalize tripleInterval s₁ msg = s₂ at hrest ⊢
      refine Nat.le_of_mul_le_mul_right ?_ (show 0 < 256 ^ s₁.digits from Nat.pow_pos (by decide))
      calc 255 ^ (msg.length + 1) * s.width * (t.freq.toNat * freqProd msg) * 256 ^ s₂.digits
            * 256 ^ s₁.digits
          = 255 * s.width * t.freq.toNat * 256 ^ s₁.digits
              * (255 ^ msg.length * freqProd msg * 256 ^ s₂.digits) := by ring
        _ ≤ s₁.width * t.tot.toNat * 256 * 256 ^ s.digits
              * (255 ^ msg.length * freqProd msg * 256 ^ s₂.digits) := Nat.mul_le_mul_right _ hstep
        _ = 255 ^ msg.length * s₁.width * freqProd msg * 256 ^ s₂.digits
              * (t.tot.toNat * 256 * 256 ^ s.digits) := by ring
        _ ≤ s₂.width * totProd msg * 256 ^ msg.length * 256 ^ s₁.digits
              * (t.tot.toNat * 256 * 256 ^ s.digits) := Nat.mul_le_mul_right _ hrest
        _ = s₂.width * (t.tot.toNat * totProd msg) * 256 ^ (msg.length + 1) * 256 ^ s.digits
              * 256 ^ s₁.digits := by ring

/-- The flush drops three digits at least. -/
theorem tqAcEncFinish_length_le {e : TqAcEnc} {s : Iv} (h : e.At s)
    (ho : (tqAcEncFinish e).overflow = false) : (tqAcEncFinish e).buf.length ≤ s.digits - 3 :=
  (tqAcEncFinish_length_le_iff h ho (Nat.sub_le _ _)).mpr
    ((pow_dvd_pow 256 (by omega)).trans (flushPoint_dvd s))

/-- **Near-optimal code length.**  The coder returns on every message, and when
the buffer took all of it the message costs at most its charge, `log2 (256 / 255)`
bits for each symbol, and one byte. -/
theorem encodeTriples_length (cap : Nat) (msg : List AcTriple) :
    ∃ e, encodeTriples cap msg = some e ∧
      (e.overflow = false → 1 ≤ e.buf.length →
        256 ^ (e.buf.length - 1) * (msg.map fun t => t.freq.toNat).prod * 255 ^ msg.length
          ≤ (msg.map fun t => t.tot.toNat).prod * 256 ^ msg.length) := by
  obtain ⟨e, he, hat, -⟩ := codeTriples_at msg (at_init cap)
  refine ⟨tqAcEncFinish e, by rw [encodeTriples, he]; rfl, fun ho hpos => ?_⟩
  have hlen := tqAcEncFinish_length_le hat ho
  have hcharge := interval_charge msg (s := initIv) (by decide)
  have hrange : (tripleInterval initIv msg).width ≤ 2 ^ 32 - 1 := by
    have hlt := UInt32.toNat_lt e.range
    have hw : e.range.toNat = (tripleInterval initIv msg).width := hat.width
    omega
  change _ ≤ (tripleInterval initIv msg).digits - 3 at hlen
  generalize tripleInterval initIv msg = s at hlen hcharge hrange
  generalize (tqAcEncFinish e).buf.length = len at hlen hpos
  refine Nat.le_of_mul_le_mul_right ?_ (show 0 < (2 ^ 32 - 1) * 256 ^ 4 by decide)
  calc 256 ^ (len - 1) * freqProd msg * 255 ^ msg.length * ((2 ^ 32 - 1) * 256 ^ 4)
      = 255 ^ msg.length * (2 ^ 32 - 1) * freqProd msg * 256 ^ (len - 1 + 4) := by
        rw [pow_add]; ring
    _ ≤ 255 ^ msg.length * (2 ^ 32 - 1) * freqProd msg * 256 ^ s.digits := by
        exact Nat.mul_le_mul_left _ (Nat.pow_le_pow_right (by decide) (by omega))
    _ ≤ s.width * totProd msg * 256 ^ msg.length * 256 ^ 4 := hcharge
    _ ≤ (2 ^ 32 - 1) * totProd msg * 256 ^ msg.length * 256 ^ 4 := by
        gcongr
    _ = totProd msg * 256 ^ msg.length * ((2 ^ 32 - 1) * 256 ^ 4) := by ring

/-- A symbol at one part in 256 and one at one in two, in two bytes. -/
theorem encodeTriples_length_two :
    let msg : List AcTriple :=
      [⟨7, 1, 256, by decide, by decide, by decide⟩, ⟨1, 1, 2, by decide, by decide, by decide⟩]
    ∃ e, encodeTriples 16 msg = some e ∧ e.overflow = false ∧ e.buf.length = 2 ∧
      256 ^ (e.buf.length - 1) * (msg.map fun t => t.freq.toNat).prod * 255 ^ msg.length
        ≤ (msg.map fun t => t.tot.toNat).prod * 256 ^ msg.length := by
  intro msg
  obtain ⟨e, he, hbound⟩ := encodeTriples_length 16 msg
  have hrun : (encodeTriples 16 msg).map (fun e => (e.overflow, e.buf.length)) =
      some (false, 2) := by decide
  rw [he] at hrun
  obtain ⟨ho, hlen⟩ := Prod.mk.inj (Option.some.inj hrun)
  exact ⟨e, he, ho, hlen, hbound ho (by omega)⟩

/-! ## The shortest message -/

/-- A message that lies in the interval, and none with fewer bytes does. -/
def Shortest (s : Iv) (wire : List UInt8) : Prop :=
  s.Contains 256 (digitsOf wire) ∧
    ∀ other : List UInt8, s.Contains 256 (digitsOf other) → wire.length ≤ other.length

/-- The state of the encoder leaves no shorter message than the one that
`tq_ac_enc_finish` picks: the next carry is out of reach of the interval, or
rounding `low` up reaches it. -/
def CarryOut (e : TqAcEnc) : Prop :=
  e.low.toNat % 2 ^ 32 = 0 ∨ 2 ^ 32 - 2 ^ 24 < e.low.toNat % 2 ^ 32 ∨
    e.low.toNat % 2 ^ 32 + e.range.toNat ≤ 2 ^ 32

/-- The `k` bytes of a number, the first one the highest. -/
def spell (k x : Nat) : List UInt8 := (Bytes.toLE k x).reverse

theorem length_spell (k x : Nat) : (spell k x).length = k :=
  (List.length_reverse).trans (Bytes.length_toLE k x)

theorem val_reverse : ∀ bs : List UInt8, val 256 (digitsOf bs.reverse) = Bytes.ofLE bs
  | [] => rfl
  | b :: bs => by
      rw [List.reverse_cons, digitsOf_append, Bytes.ofLE, ← val_reverse bs, Nat.add_comm,
        Nat.mul_comm]
      exact val_concat b.toNat

theorem val_spell {k x : Nat} (h : x < 256 ^ k) : val 256 (digitsOf (spell k x)) = x := by
  rw [spell, val_reverse, Bytes.ofLE_toLE_of_lt h]

/-- What `n` bytes are worth at `n` digits or more. -/
theorem prefixVal_digitsOf {bs : List UInt8} {k : Nat} (h : bs.length ≤ k) :
    prefixVal 256 (digitsOf bs) k = val 256 (digitsOf bs) * 256 ^ (k - bs.length) := by
  have hlen : (digitsOf bs).length = bs.length := List.length_map _
  rw [prefixVal_of_le (by omega), hlen]

section Flush
variable {e : TqAcEnc} {s : Iv}

/-- `low` is what the lower end has below `2 ^ 32`. -/
theorem lo_mod (h : Rep e s) : s.lo % 2 ^ 32 = e.low.toNat % 2 ^ 32 := by
  have hlo := h.lo
  generalize (e.head + 1) * 256 ^ e.pending = x at hlo
  omega

/-- Where no carry is missed, a multiple of `2 ^ 32` in the interval is the point. -/
theorem flushPoint_eq (h : Rep e s) (hr : e.range.toNat = s.width) (hc : CarryOut e) {p : Nat}
    (hdvd : 256 ^ 4 ∣ p) (hlo : s.lo ≤ p) (hhi : p < s.lo + s.width) : p = flushPoint s := by
  obtain ⟨q, rfl⟩ := hdvd
  have hmod := lo_mod h
  have hlt := UInt32.toNat_lt e.range
  unfold CarryOut at hc
  rw [← hmod] at hc
  unfold flushPoint
  omega

/-- Where one is missed, it is in the interval and the point is not one. -/
theorem carry_missed (h : Rep e s) (hr : e.range.toNat = s.width) (hc : ¬ CarryOut e) :
    s.lo ≤ (s.lo / 2 ^ 32 + 1) * 256 ^ 4 ∧ (s.lo / 2 ^ 32 + 1) * 256 ^ 4 < s.lo + s.width ∧
      ¬ 256 ^ 4 ∣ flushPoint s := by
  have hmod := lo_mod h
  unfold CarryOut at hc
  rw [← hmod] at hc
  refine ⟨by omega, by omega, ?_⟩
  rintro ⟨q, hq⟩
  unfold flushPoint at hq
  omega

/-- **The flush is minimal** exactly where no carry is missed. -/
theorem shortest_iff (h : e.At s) (ho : (tqAcEncFinish e).overflow = false) (hs : s.Within 256)
    (hd : 4 ≤ s.digits) : Shortest s (tqAcEncFinish e).buf ↔ CarryOut e := by
  obtain ⟨hin, hclear⟩ := tqAcEncFinish_contains h ho
  have hrep := h.rep hclear
  have hlen := tqAcEncFinish_length_le h ho
  constructor
  · intro hmin
    by_contra hc
    obtain ⟨hlo, hhi, hdvd⟩ := carry_missed hrep h.width hc
    have hfit : s.lo / 2 ^ 32 + 1 < 256 ^ (s.digits - 4) := by
      refine Nat.lt_of_mul_lt_mul_right (a := 256 ^ 4) ?_
      rw [← pow_add, Nat.sub_add_cancel hd]
      exact Nat.lt_of_lt_of_le hhi hs
    have hfour : s.digits - (s.digits - 4) = 4 := Nat.sub_sub_self hd
    have hother := hmin.2 (spell (s.digits - 4) (s.lo / 2 ^ 32 + 1)) (by
      rw [Iv.Contains, prefixVal_digitsOf (by rw [length_spell]; omega), val_spell hfit,
        length_spell, hfour]
      exact ⟨hlo, hhi⟩)
    rw [length_spell, tqAcEncFinish_length_le_iff h ho (Nat.sub_le _ _), hfour] at hother
    exact hdvd hother
  · intro hc
    refine ⟨hin, fun other hother => ?_⟩
    by_contra hlt
    have hshort : other.length ≤ s.digits - 4 := by omega
    rw [Iv.Contains, prefixVal_digitsOf (by omega)] at hother
    have hpow : 256 ^ (s.digits - other.length)
        ∣ val 256 (digitsOf other) * 256 ^ (s.digits - other.length) := ⟨_, Nat.mul_comm _ _⟩
    have hpoint := flushPoint_eq hrep h.width hc
      ((pow_dvd_pow 256 (by omega)).trans hpow) hother.1 hother.2
    rw [hpoint] at hpow
    exact hlt ((tqAcEncFinish_length_le_iff h ho (by omega)).mpr hpow)

end Flush

theorem within_tripleInterval : ∀ (msg : List AcTriple) {s : Iv}, s.Within 256 →
    (tripleInterval s msg).Within 256
  | [], _, h => h
  | _ :: msg, _, h => within_tripleInterval msg (Iv.Within.code h)

theorem digits_le_tripleInterval : ∀ (msg : List AcTriple) (s : Iv),
    s.digits ≤ (tripleInterval s msg).digits
  | [], _ => Nat.le_refl _
  | t :: msg, s => (Iv.digits_le_renorm 3 (s.narrow t.slot)).trans
      (digits_le_tripleInterval msg (s.code 256 (2 ^ 24) 3 t.slot))

/-- **Minimal flush.**  The coder reaches its final state on every message, and
when the buffer took all of it the bytes that the flush leaves are a shortest
message of the interval exactly where no carry is missed. -/
theorem encodeTriples_shortest (cap : Nat) (msg : List AcTriple) :
    ∃ e, codeTriples (tqAcEncInit cap) msg = some e ∧
      ((tqAcEncFinish e).overflow = false →
        (Shortest (tripleInterval initIv msg) (tqAcEncFinish e).buf ↔ CarryOut e)) := by
  obtain ⟨e, he, hat, -⟩ := codeTriples_at msg (at_init cap)
  have hwithin : initIv.Within 256 := by unfold Iv.Within initIv; decide
  exact ⟨e, he, fun ho => shortest_iff hat ho (within_tripleInterval msg hwithin)
    (digits_le_tripleInterval msg initIv)⟩

/-- The symbol `(300, 1, 65536)`, whose interval holds `01 2c` and is flushed as `01 2b ff`. -/
def carryTriple : AcTriple := ⟨300, 1, 65536, by decide, by decide, by decide⟩

theorem encodeTriples_not_shortest :
    ¬ ∀ (cap : Nat) (msg : List AcTriple) (e : TqAcEnc),
      codeTriples (tqAcEncInit cap) msg = some e → (tqAcEncFinish e).overflow = false →
      Shortest (tripleInterval initIv msg) (tqAcEncFinish e).buf := by
  intro h
  have hrun : codeTriples (tqAcEncInit 8) [carryTriple]
      = some ⟨[1], 8, 4275306496, 4294901760, 43, 0, true, false, false⟩ := by decide
  have hmin := (h 8 _ _ hrun (by decide)).2 [1, 44]
    ⟨by decide, by decide⟩
  exact absurd hmin (by decide)

end TinyLlm
