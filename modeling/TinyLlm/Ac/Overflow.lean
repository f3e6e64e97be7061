/-
# `TinyLlm.Ac.Overflow` — a full buffer

The coder never reads its buffer before the flush strips it, so a run over a
small buffer is the run over a large one, seen through `limit`: the first
`cap` bytes, and the flag set as soon as there were more.  Every operation
commutes with `limit` (`tqAcShiftLow_limit`, `codeTriples_limit`).

The flag is therefore exact for the bytes before the stripping.  After it the
message may fit a buffer that they did not (`encodeTriples_overflow`).
-/
import TinyLlm.Ac.Message

namespace TinyLlm

open IntervalCoding Loop

/-- The same run over a buffer of `cap` bytes. -/
def TqAcEnc.limit (cap : Nat) (e : TqAcEnc) : TqAcEnc :=
  { e with buf := e.buf.take cap, cap := cap, overflow := decide (cap < e.buf.length) }

section Limit
variable (cap : Nat)

theorem tqAcPut_limit {e : TqAcEnc} (byte : UInt8) (h : e.buf.length < e.cap) :
    tqAcPut (e.limit cap) byte = (tqAcPut e byte).limit cap := by
  rw [tqAcPut_fits h]
  unfold tqAcPut TqAcEnc.limit
  dsimp only
  rcases Nat.lt_or_ge e.buf.length cap with hlt | hge
  · have hshort : (e.buf.take cap).length < cap := by
      rw [List.length_take]
      omega
    have hlen : (e.buf ++ [byte]).length ≤ cap := by
      rw [List.length_append]
      exact hlt
    rw [if_pos hshort, List.take_of_length_le hlt.le, List.take_of_length_le hlen,
      decide_eq_false (Nat.not_lt_of_le hlt.le), decide_eq_false (Nat.not_lt_of_le hlen)]
  · have hfull : ¬ (e.buf.take cap).length < cap := by
      rw [List.length_take]
      omega
    have hlen : cap < (e.buf ++ [byte]).length := by
      rw [List.length_append]
      exact Nat.lt_succ_of_le hge
    rw [if_neg hfull, List.take_append_of_le_length hge, decide_eq_true hlen]

theorem tqAcDrain_limit {carry : UInt8} : ∀ (n : Nat) {e : TqAcEnc}, e.buf.length + n ≤ e.cap →
    tqAcDrain carry n (e.limit cap) = (tqAcDrain carry n e).limit cap
  | 0, _, _ => rfl
  | n + 1, e, h => by
      rw [tqAcDrain, tqAcDrain, tqAcPut_limit cap _ (by omega)]
      refine tqAcDrain_limit n ?_
      rw [tqAcPut_fits (by omega)]
      show (e.buf ++ [_]).length + n ≤ e.cap
      rw [List.length_append, List.length_singleton]
      omega

theorem tqAcSettle_limit {e : TqAcEnc} (h : e.owed ≤ e.cap) :
    tqAcSettle (e.limit cap) = (tqAcSettle e).limit cap := by
  unfold TqAcEnc.owed at h
  have hdrain : ∀ e₁ : TqAcEnc, e₁.buf.length + e.pending ≤ e₁.cap →
      { tqAcDrain (e.low >>> 32).toUInt8 e.pending (e₁.limit cap) with
          cache := (e.low >>> 24).toUInt8, primed := true }
        = ({ tqAcDrain (e.low >>> 32).toUInt8 e.pending e₁ with
          cache := (e.low >>> 24).toUInt8, primed := true } : TqAcEnc).limit cap := fun e₁ h₁ => by
    rw [tqAcDrain_limit cap e.pending h₁]
    rfl
  cases hp : e.primed with
  | true =>
      rw [hp] at h
      change e.buf.length + e.pending + 1 ≤ e.cap at h
      have hput := tqAcPut_limit cap (e.cache + (e.low >>> 32).toUInt8)
        (show e.buf.length < e.cap by omega)
      have hp' : (e.limit cap).primed = true := hp
      unfold tqAcSettle
      simp only [hp, hp', if_true]
      refine Eq.trans ?_ (hdrain _ ?_)
      · rw [← hput]
        rfl
      · rw [tqAcPut_fits (by omega)]
        show (e.buf ++ [_]).length + e.pending ≤ e.cap
        rw [List.length_append, List.length_singleton]
        omega
  | false =>
      have hp' : (e.limit cap).primed = false := hp
      unfold tqAcSettle
      simp only [hp, hp', Bool.false_eq_true, if_false]
      exact hdrain e (by omega)

/-- **One shift** does the same over a small buffer. -/
theorem tqAcShiftLow_limit {e : TqAcEnc} (h : e.owed ≤ e.cap) :
    tqAcShiftLow (e.limit cap) = (tqAcShiftLow e).limit cap := by
  have hlow : (e.limit cap).low = e.low := rfl
  unfold tqAcShiftLow
  rw [hlow, tqAcSettle_limit cap h]
  split <;> rfl

theorem tqAcShiftLow_iterate_limit {n : Nat} : ∀ (k : Nat) {e : TqAcEnc}, e.Room (k + n) →
    tqAcShiftLow^[k] (e.limit cap) = (tqAcShiftLow^[k] e).limit cap
  | 0, _, _ => rfl
  | k + 1, e, h => by
      have hfits := h.fits
      have hroom := tqAcShiftLow_room (n := k + n) (h.mono (by omega))
      rw [Function.iterate_succ_apply, Function.iterate_succ_apply,
        tqAcShiftLow_limit cap (by omega)]
      exact tqAcShiftLow_iterate_limit k hroom

theorem whileFuel_limit {n : Nat} : ∀ (k : Nat) {e : TqAcEnc}, e.Room (k + n) →
    whileFuel (fun e => decide (e.range < tqAcTop))
        (fun e => { tqAcShiftLow e with range := e.range <<< 8 }) k (e.limit cap)
      = (whileFuel (fun e => decide (e.range < tqAcTop))
          (fun e => { tqAcShiftLow e with range := e.range <<< 8 }) k e).map (TqAcEnc.limit cap)
  | 0, e, _ => by
      have hrange : (e.limit cap).range = e.range := rfl
      rw [whileFuel, whileFuel, hrange]
      split <;> rfl
  | k + 1, e, h => by
      have hrange : (e.limit cap).range = e.range := rfl
      have hfits := h.fits
      have hroom := tqAcShiftLow_room (n := k + n) (h.mono (by omega))
      rw [whileFuel, whileFuel, hrange]
      split
      · rw [tqAcShiftLow_limit cap (by omega)]
        exact whileFuel_limit k (e := { tqAcShiftLow e with range := e.range <<< 8 })
          ⟨hroom.clear, hroom.fits⟩
      · rfl

theorem tqAcEncSym_limit {e : TqAcEnc} {cum freq tot : UInt32} (h : e.Room 3) :
    tqAcEncSym (e.limit cap) cum freq tot =
      (tqAcEncSym e cum freq tot).map (TqAcEnc.limit cap) := by
  unfold tqAcEncSym
  split
  · rfl
  · exact whileFuel_limit cap 3 (n := 0)
      (e := { e with low := e.low + (e.range / tot).toUInt64 * cum.toUInt64,
                     range := e.range / tot * freq }) ⟨h.clear, h.fits⟩

/-- **A message** does. -/
theorem codeTriples_limit : ∀ (msg : List AcTriple) {e : TqAcEnc}, e.Room (3 * msg.length) →
    codeTriples (e.limit cap) msg = (codeTriples e msg).map (TqAcEnc.limit cap) := by
  intro msg
  induction msg with
  | nil => intro e _; rfl
  | cons t msg ih =>
      intro e h
      rw [List.length_cons] at h
      rw [codeTriples, codeTriples, List.foldlM_cons, List.foldlM_cons,
        tqAcEncSym_limit cap (h.mono (by omega))]
      cases he : tqAcEncSym e t.cum t.freq t.tot with
      | none => rfl
      | some e₁ => exact ih (tqAcEncSym_room (h.mono (by omega)) he)

theorem tqAcRound_limit (e : TqAcEnc) : ∀ is, tqAcRound (e.limit cap) is = tqAcRound e is
  | [] => rfl
  | i :: is => by
      rw [tqAcRound, tqAcRound, tqAcRound_limit e is]
      rfl

theorem tqAcEncFlush_room {e : TqAcEnc} (h : e.Room 5) : (tqAcEncFlush e).Room 0 := by
  have hroom : ∀ v, (tqAcEncPick e v).Room (5 + 0) := fun v => ⟨h.clear, h.fits⟩
  rw [tqAcEncFlush]
  exact tqAcShiftLow_iterate_room 5 (hroom _)

/-- The flush does, before the stripping. -/
theorem tqAcEncFlush_limit {e : TqAcEnc} (h : e.Room 5) :
    tqAcEncFlush (e.limit cap) = (tqAcEncFlush e).limit cap := by
  have hpick : ∀ v, tqAcEncPick (e.limit cap) v = (tqAcEncPick e v).limit cap := fun _ => rfl
  have hroom : ∀ v, (tqAcEncPick e v).Room (5 + 0) := fun v => ⟨h.clear, h.fits⟩
  rw [tqAcEncFlush, tqAcEncFlush, tqAcRound_limit, hpick,
    tqAcShiftLow_iterate_limit cap 5 (hroom _)]

end Limit

theorem tqAcEncInit_limit (cap big : Nat) : (tqAcEncInit big).limit cap = tqAcEncInit cap := by
  simp [TqAcEnc.limit, tqAcEncInit]

/-- **Every capacity at once.**  The bytes before the stripping are those of the
interval, a buffer of `cap` bytes holds the first `cap` of them. -/
theorem encodeTriples_limit (msg : List AcTriple) :
    ∃ bytes : List UInt8, bytes.length = (tripleInterval initIv msg).digits ∧
      val 256 (digitsOf bytes) = flushPoint (tripleInterval initIv msg) ∧
      bytes.length ≤ 3 * msg.length + 5 ∧
      ∀ cap, ∃ e, encodeTriples cap msg = some e ∧
        e.buf = (bytes.take cap).rdropWhile (· == 0) ∧
        e.overflow = decide (cap < bytes.length) := by
  have hinit : (tqAcEncInit (3 * msg.length + 5)).Room (3 * msg.length + 5) :=
    ⟨rfl, (Nat.zero_add _).le⟩
  obtain ⟨e, he, hat, hroom⟩ := codeTriples_at msg (at_init (3 * msg.length + 5))
  have hfive := hroom 5 hinit
  obtain ⟨hlen, hval⟩ := tqAcEncFlush_spec hat (tqAcEncFlush_room hfive).clear
  refine ⟨(tqAcEncFlush e).buf, hlen, hval, ?_, fun cap => ?_⟩
  · rw [hlen]
    have hdigits : (tripleInterval initIv msg).digits ≤ 4 + 3 * msg.length :=
      tripleInterval_digits_le msg initIv
    exact hdigits.trans (by omega)
  · have hrun : codeTriples (tqAcEncInit cap) msg = some (e.limit cap) := by
      rw [← tqAcEncInit_limit cap (3 * msg.length + 5),
        codeTriples_limit cap msg (hinit.mono (by omega)), he]
      rfl
    refine ⟨tqAcEncFinish (e.limit cap), by rw [encodeTriples, hrun]; rfl, ?_⟩
    have hopen : (e.limit cap).finished = false := hat.unfinished
    rw [tqAcEncFinish_eq hopen, tqAcEncFlush_limit cap hfive, tqAcEncStrip_buf,
      tqAcEncStrip_overflow]
    exact ⟨rfl, rfl⟩

/-- A message that the buffer took lies in its interval. -/
theorem encodeTriples_contains {cap : Nat} {msg : List AcTriple} {e : TqAcEnc}
    (h : encodeTriples cap msg = some e) (ho : e.overflow = false) :
    (tripleInterval initIv msg).Contains 256 (digitsOf e.buf) := by
  obtain ⟨e₁, he₁, hat, -⟩ := codeTriples_at msg (at_init cap)
  rw [encodeTriples, he₁] at h
  cases h
  exact (tqAcEncFinish_contains hat ho).1

/-- No more bytes are left than the buffer has. -/
theorem encodeTriples_length_le {cap : Nat} {msg : List AcTriple} {e : TqAcEnc}
    (h : encodeTriples cap msg = some e) : e.buf.length ≤ cap := by
  obtain ⟨bytes, -, -, -, hrun⟩ := encodeTriples_limit msg
  obtain ⟨e', he', hbuf, -⟩ := hrun cap
  cases h.symm.trans he'
  have hstrip := List.rdropWhile_prefix (· == 0) (bytes.take cap)
  rw [hbuf]
  exact hstrip.length_le.trans (List.length_take_le _ _)

/-- The flag compares the capacity and the digits. -/
theorem encodeTriples_flag {cap : Nat} {msg : List AcTriple} {e : TqAcEnc}
    (h : encodeTriples cap msg = some e) :
    e.overflow = decide (cap < (tripleInterval initIv msg).digits) := by
  obtain ⟨bytes, hlen, -, -, hrun⟩ := encodeTriples_limit msg
  obtain ⟨e', he', -, hov⟩ := hrun cap
  cases h.symm.trans he'
  rw [hov, hlen]

/-- How short a message is, when the buffer took it. -/
theorem encodeTriples_length_le_iff {cap : Nat} {msg : List AcTriple} {e : TqAcEnc}
    (h : encodeTriples cap msg = some e) (ho : e.overflow = false) (n : Nat) :
    e.buf.length ≤ n ↔
      256 ^ ((tripleInterval initIv msg).digits - n) ∣ flushPoint (tripleInterval initIv msg) := by
  obtain ⟨bytes, hlen, hval, -, hrun⟩ := encodeTriples_limit msg
  obtain ⟨e', he', hbuf, hov⟩ := hrun cap
  cases h.symm.trans he'
  have hfits : bytes.length ≤ cap := Nat.le_of_not_lt (of_decide_eq_false (hov.symm.trans ho))
  rw [List.take_of_length_le hfits] at hbuf
  rw [hbuf, ← hlen, ← hval]
  rcases Nat.le_total n bytes.length with hn | hn
  · exact length_strip_le_iff hn
  · have hstrip := (bytes.rdropWhile_prefix (· == 0)).length_le
    rw [Nat.sub_eq_zero_of_le hn, Nat.pow_zero]
    exact iff_of_true (hstrip.trans hn) (one_dvd _)

/-- The message is short enough, or so long that nothing of it is stripped
below the capacity. -/
def FlagExact (cap : Nat) (s : Iv) : Prop :=
  s.digits ≤ cap ∨ ¬ 256 ^ (s.digits - cap) ∣ flushPoint s

/-- What the flag has to say of a message `M`. -/
def FlagSays (cap : Nat) (M : List UInt8) (e : TqAcEnc) : Prop :=
  (M.length ≤ cap → e.overflow = false ∧ e.buf = M) ∧ (cap < M.length → e.overflow = true)

/-- **The overflow flag.**  A message has one value `M` in every buffer with
room for three bytes a symbol and five more.  Over a buffer of `cap` bytes the
flag and the bytes are as `M` and `cap` require exactly where the buffer has
room for what the flush strips, or has none for the message. -/
theorem encodeTriples_overflow (msg : List AcTriple) :
    ∃ M : List UInt8,
      (∀ big, 3 * msg.length + 5 ≤ big →
        ∃ e, encodeTriples big msg = some e ∧ e.overflow = false ∧ e.buf = M) ∧
      ∀ cap, ∃ e, encodeTriples cap msg = some e ∧
        (FlagSays cap M e ↔ FlagExact cap (tripleInterval initIv msg)) := by
  obtain ⟨bytes, hlen, hval, hle, hrun⟩ := encodeTriples_limit msg
  have hall : ∀ cap, bytes.length ≤ cap → bytes.take cap = bytes :=
    fun cap h => List.take_of_length_le h
  refine ⟨bytes.rdropWhile (· == 0), fun big hbig => ?_, fun cap => ?_⟩
  · obtain ⟨e, he, hbuf, hov⟩ := hrun big
    rw [hall big (hle.trans hbig)] at hbuf
    exact ⟨e, he, hov.trans (decide_eq_false (Nat.not_lt_of_le (hle.trans hbig))), hbuf⟩
  · obtain ⟨e, he, hbuf, hov⟩ := hrun cap
    refine ⟨e, he, ?_⟩
    unfold FlagSays FlagExact
    rw [← hlen, ← hval]
    have hstrip := (bytes.rdropWhile_prefix (· == 0)).length_le
    rcases Nat.lt_or_ge cap bytes.length with hlt | hge
    · have hset : e.overflow = true := hov.trans (decide_eq_true hlt)
      have hiff := length_strip_le_iff hlt.le
      constructor
      · intro h
        refine .inr fun hdvd => ?_
        have hclear := (h.1 (hiff.mpr hdvd)).1
        exact Bool.noConfusion (hset.symm.trans hclear)
      · rintro (h | h)
        · exact absurd hlt (Nat.not_lt_of_le h)
        · exact ⟨fun hM => absurd (hiff.mp hM) h, fun _ => hset⟩
    · rw [hall cap hge] at hbuf
      have hclear := hov.trans (decide_eq_false (Nat.not_lt_of_le hge))
      exact ⟨fun _ => .inl hge,
        fun _ => ⟨fun _ => ⟨hclear, hbuf⟩, fun h => absurd (hstrip.trans hge) (Nat.not_le_of_lt h)⟩⟩

/-- The symbol `(300, 1, 65536)`: six bytes are stripped to three, and a buffer
of four bytes holds those and overflows. -/
theorem encodeTriples_not_flagSays :
    ¬ ∀ (msg : List AcTriple) (M : List UInt8),
      (∃ big e, encodeTriples big msg = some e ∧ e.overflow = false ∧ e.buf = M) →
      ∀ cap e, encodeTriples cap msg = some e → FlagSays cap M e := by
  intro h
  have hrun : encodeTriples 4 [⟨300, 1, 65536, by decide, by decide, by decide⟩]
      = some ⟨[1, 43, 255], 4, 0, 4294901760, 0, 0, true, true, true⟩ := by decide
  have hbig : encodeTriples 6 [⟨300, 1, 65536, by decide, by decide, by decide⟩]
      = some ⟨[1, 43, 255], 6, 0, 4294901760, 0, 0, true, true, false⟩ := by decide
  have hflag := h _ [1, 43, 255] ⟨6, _, hbig, rfl, rfl⟩ 4 _ hrun
  exact Bool.noConfusion (hflag.1 (by decide)).1

end TinyLlm
