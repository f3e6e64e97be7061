/-
# `TinyLlm.Ac.RoundTrip` — encoder and decoder in lockstep

A message is a list of symbols, each with the count table it is coded by.  The
encoder narrows one exact interval per symbol (`TqAcEnc.At`), the flush leaves
a message inside the last one, and since the intervals are nested the message
lies in all of them.  So the decoder, which keeps the offset in the same
interval (`TqAcDec.At`), finds each target inside the slot that was coded.

`CountTable` carries what makes the tables usable: no count is zero and the
total fits the coder.  `intervalAfter` is the chain of intervals; the adaptive
codec of `TinyLlm.Sem` uses the same step lemmas with tables that depend on
what was decoded so far.
-/
import TinyLlm.Lib.Tiling
import TinyLlm.Ac.Decoder
import TinyLlm.Ac.Room
import TinyLlm.Ac.Table

namespace TinyLlm

open IntervalCoding Finset

/-- `n` counts, all positive, that tile `[0, tot)` with `tot ≤ TQ_AC_TOT`. -/
structure CountTable where
  cnt : Nat → UInt32
  n : Nat
  n_pos : 0 < n
  cnt_pos : ∀ i < n, 0 < (cnt i).toNat
  total_le : ∑ i ∈ range n, (cnt i).toNat ≤ 2 ^ 16

namespace CountTable
variable (T : CountTable)

/-- The total, as the C passes it. -/
def tot : UInt32 := tqAcCum T.cnt T.n

theorem toNat_cum : ∀ {i : Nat}, i ≤ T.n →
    (tqAcCum T.cnt i).toNat = ∑ k ∈ range i, (T.cnt k).toNat := by
  intro i
  induction i with
  | zero => intro _; rfl
  | succ i ih =>
      intro hi
      have hend := Tiling.slot_end_le (f := fun k => (T.cnt k).toNat) (show i < T.n from hi)
      have hle := T.total_le
      rw [tqAcCum, UInt32.toNat_add, ih (by omega), sum_range_succ]
      exact Nat.mod_eq_of_lt (by omega)

theorem toNat_tot : T.tot.toNat = ∑ k ∈ range T.n, (T.cnt k).toNat := T.toNat_cum le_rfl

/-- The slot of symbol `i`. -/
def slot (i : Nat) (hi : i < T.n) : Slot where
  cum := ∑ k ∈ range i, (T.cnt k).toNat
  freq := (T.cnt i).toNat
  tot := ∑ k ∈ range T.n, (T.cnt k).toNat
  freq_pos := T.cnt_pos i hi
  fits := Tiling.slot_end_le (f := fun k => (T.cnt k).toNat) hi

/-- `tq_ac_find` returns the index whose slot holds the target. -/
theorem find_eq {i : Nat} (hi : i < T.n) {target : UInt32}
    (hlo : (T.slot i hi).cum ≤ target.toNat)
    (hhi : target.toNat < (T.slot i hi).cum + (T.slot i hi).freq) :
    tqAcFind T.cnt T.n target = (i, tqAcCum T.cnt i) := by
  have hgo : ∀ k ≤ T.n, T.n - k ≤ i →
      tqAcFindFrom T.cnt T.n target k (tqAcCum T.cnt (T.n - k)) = (i, tqAcCum T.cnt i) := by
    intro k
    induction k with
    | zero => intro _ h; omega
    | succ k ih =>
        intro hk hle
        have hj : T.n - (k + 1) < T.n := by omega
        have hnext : T.n - k = T.n - (k + 1) + 1 := by omega
        have hcum := T.toNat_cum (show T.n - k ≤ T.n by omega)
        have htest : target < tqAcCum T.cnt (T.n - (k + 1)) + T.cnt (T.n - (k + 1)) ↔
            T.n - (k + 1) = i := by
          show target < tqAcCum T.cnt (T.n - (k + 1) + 1) ↔ _
          rw [UInt32.lt_iff_toNat_lt, ← hnext, hcum, hnext, sum_range_succ]
          constructor
          · intro hlt
            refine Tiling.slot_unique (f := fun k => (T.cnt k).toNat) ?_ hlt hlo hhi
            exact Nat.le_trans (Tiling.cum_mono _ hle) hlo
          · rintro rfl
            exact hhi
        rw [tqAcFindFrom]
        by_cases hji : T.n - (k + 1) = i
        · rw [if_pos (htest.mpr hji), hji]
        · rw [if_neg (fun h => hji (htest.mp h))]
          have := ih (by omega) (by omega)
          rwa [hnext] at this
  have h := hgo T.n le_rfl (by omega)
  rwa [Nat.sub_self] at h

/-! ## One step on each side -/

theorem enc_step {e : TqAcEnc} {s : Iv} (h : e.At s) {i : Nat} (hi : i < T.n) :
    ∃ e', tqAcEncSym e (tqAcCum T.cnt i) (T.cnt i) T.tot = some e' ∧
      e'.At (s.code 256 (2 ^ 24) 3 (T.slot i hi)) ∧ (e'.overflow = false → e.overflow = false) :=
  tqAcEncSym_at h (T.slot i hi) T.total_le (T.toNat_cum hi.le) rfl T.toNat_tot

/-- The decoder finds symbol `i` and moves on with the encoder. -/
theorem dec_step {d : TqAcDec} {s : Iv} (h : d.At s) {i : Nat} (hi : i < T.n)
    (hin : (s.code 256 (2 ^ 24) 3 (T.slot i hi)).Contains 256 (digitsOf d.buf)) :
    ∃ target d₁ d₂, tqAcDecTarget d T.tot = some (target, d₁) ∧
      tqAcFind T.cnt T.n target = (i, tqAcCum T.cnt i) ∧
      tqAcDecUpdate d₁ (tqAcCum T.cnt i) (T.cnt i) = some d₂ ∧
      d₂.At (s.code 256 (2 ^ 24) 3 (T.slot i hi)) ∧ d₂.buf = d.buf := by
  obtain ⟨target, htarget, hlo, hhi⟩ := tqAcDecTarget_at h (t := T.slot i hi) T.total_le
    T.toNat_tot (Iv.contains_of_code (digitsOf_lt d.buf) hin)
  obtain ⟨d₂, hupdate, hat, hbuf⟩ := tqAcDecUpdate_at h (t := T.slot i hi) T.total_le
    (T.toNat_cum hi.le) rfl T.toNat_tot hin
  exact ⟨target, _, d₂, htarget, T.find_eq hi hlo hhi, hupdate, hat, hbuf⟩

end CountTable

/-! ## Whole messages -/

/-- One symbol of a message, with its table. -/
structure AcStep where
  table : CountTable
  sym : Nat
  sym_lt : sym < table.n

def AcStep.slot (st : AcStep) : Slot := st.table.slot st.sym st.sym_lt

/-- The interval after a list of symbols. -/
def intervalAfter (s : Iv) (msg : List AcStep) : Iv :=
  msg.foldl (fun s st => s.code 256 (2 ^ 24) 3 st.slot) s

/-- A stream that lies in the last interval lies in the first. -/
theorem contains_of_intervalAfter {buf : List UInt8} :
    ∀ (msg : List AcStep) {s : Iv}, (intervalAfter s msg).Contains 256 (digitsOf buf) →
      s.Contains 256 (digitsOf buf)
  | [], _, h => h
  | st :: msg, s, h =>
      Iv.contains_of_narrow (Iv.contains_of_code (digitsOf_lt buf)
        (contains_of_intervalAfter msg (s := s.code 256 (2 ^ 24) 3 st.slot) h))

/-- The calls of `tq_ac_enc_sym`, in order. -/
def encodeSyms (e : TqAcEnc) (msg : List AcStep) : Option TqAcEnc :=
  msg.foldlM
    (fun e st => tqAcEncSym e (tqAcCum st.table.cnt st.sym) (st.table.cnt st.sym) st.table.tot) e

/-- `tq_ac_enc_init`, the symbols, `tq_ac_enc_finish`. -/
def encodeMessage (cap : Nat) (msg : List AcStep) : Option TqAcEnc :=
  (encodeSyms (tqAcEncInit cap) msg).map tqAcEncFinish

/-- Target, lookup, update, for each table in turn. -/
def decodeSyms (d : TqAcDec) : List CountTable → Option (List Nat)
  | [] => some []
  | T :: Ts => do
      let (target, d₁) ← tqAcDecTarget d T.tot
      let (i, cum) := tqAcFind T.cnt T.n target
      let d₂ ← tqAcDecUpdate d₁ cum (T.cnt i)
      let is ← decodeSyms d₂ Ts
      some (i :: is)

/-- `tq_ac_dec_init` on the emitted bytes, then the symbols. -/
def decodeMessage (wire : List UInt8) (Ts : List CountTable) : Option (List Nat) :=
  decodeSyms (tqAcDecInit wire) Ts

/-- Encoding always ends, in the interval of the message, and takes three bytes
of the buffer for a symbol at most. -/
theorem encodeSyms_at : ∀ (msg : List AcStep) {e : TqAcEnc} {s : Iv}, e.At s →
    ∃ e', encodeSyms e msg = some e' ∧ e'.At (intervalAfter s msg) ∧
      ∀ n, e.Room (3 * msg.length + n) → e'.Room n := by
  intro msg
  induction msg with
  | nil => intro e s h; exact ⟨e, rfl, h, fun n hn => hn.mono (by omega)⟩
  | cons st msg ih =>
      intro e s h
      obtain ⟨e₁, he₁, hat₁, -⟩ := st.table.enc_step h st.sym_lt
      obtain ⟨e₂, he₂, hat₂, hroom₂⟩ := ih hat₁
      refine ⟨e₂, ?_, hat₂, fun n hn => hroom₂ n ?_⟩
      · rw [encodeSyms, List.foldlM_cons, he₁]
        exact he₂
      · rw [List.length_cons] at hn
        exact tqAcEncSym_room (hn.mono (by omega)) he₁

/-- A decoder in step with the start of a message recovers all of it. -/
theorem decodeSyms_at : ∀ (msg : List AcStep) {d : TqAcDec} {s : Iv}, d.At s →
    (intervalAfter s msg).Contains 256 (digitsOf d.buf) →
    decodeSyms d (msg.map AcStep.table) = some (msg.map AcStep.sym) := by
  intro msg
  induction msg with
  | nil => intro d s _ _; rfl
  | cons st msg ih =>
      intro d s h hin
      have hin₁ := contains_of_intervalAfter msg (s := s.code 256 (2 ^ 24) 3 st.slot) hin
      obtain ⟨target, d₁, d₂, htarget, hfind, hupdate, hat, hbuf⟩ :=
        st.table.dec_step h st.sym_lt hin₁
      have hrest := ih hat (by rw [hbuf]; exact hin)
      rw [List.map_cons, List.map_cons, decodeSyms, htarget]
      show (match tqAcFind st.table.cnt st.table.n target with
        | (i, cum) => (tqAcDecUpdate d₁ cum (st.table.cnt i)).bind fun d₂ =>
            (decodeSyms d₂ (msg.map AcStep.table)).bind fun is => some (i :: is)) = _
      rw [hfind]
      show ((tqAcDecUpdate d₁ _ _).bind _) = _
      rw [hupdate]
      show ((decodeSyms d₂ (msg.map AcStep.table)).bind _) = _
      rw [hrest]
      rfl

/-- **Range coder round trip.**  The encoder returns on every message, a buffer
of three bytes a symbol and five more takes all of it, and when the buffer took
all of it the decoder, driven with the same tables, recovers every symbol from
the emitted bytes. -/
theorem encodeMessage_decodeMessage (cap : Nat) (msg : List AcStep) :
    ∃ e, encodeMessage cap msg = some e ∧
      (3 * msg.length + 5 ≤ cap → e.overflow = false) ∧
      (e.overflow = false →
        decodeMessage e.buf (msg.map AcStep.table) = some (msg.map AcStep.sym)) := by
  obtain ⟨e, he, hat, hroom⟩ := encodeSyms_at msg (at_init cap)
  refine ⟨tqAcEncFinish e, by rw [encodeMessage, he]; rfl, fun hcap => ?_, fun ho => ?_⟩
  · have hinit : (tqAcEncInit cap).Room (3 * msg.length + 5) :=
      ⟨rfl, (Nat.zero_add _).trans_le hcap⟩
    exact tqAcEncFinish_room (hroom 5 hinit)
  · obtain ⟨hin, -⟩ := tqAcEncFinish_contains hat ho
    have hinit := dec_at_init (contains_of_intervalAfter msg hin)
    exact decodeSyms_at msg hinit (by rw [tqAcDecInit_buf]; exact hin)

/-- Two counts, 1 and 2, of a total of 3. -/
def thirds : CountTable where
  cnt i := if i = 0 then 1 else 2
  n := 2
  n_pos := by decide
  cnt_pos i _ := by
    by_cases h : i = 0
    · rw [if_pos h]
      decide
    · rw [if_neg h]
      decide
  total_le := by decide

/-- Three symbols, in a buffer of 14 bytes. -/
theorem encodeMessage_decodeMessage_thirds :
    ∃ e, encodeMessage 14 [⟨thirds, 1, by decide⟩, ⟨thirds, 0, by decide⟩, ⟨thirds, 1, by decide⟩] =
      some e ∧
      e.overflow = false ∧ decodeMessage e.buf [thirds, thirds, thirds] = some [1, 0, 1] := by
  obtain ⟨e, he, hroom, hdec⟩ := encodeMessage_decodeMessage 14
    [⟨thirds, 1, by decide⟩, ⟨thirds, 0, by decide⟩, ⟨thirds, 1, by decide⟩]
  have ho := hroom (by decide)
  exact ⟨e, he, ho, hdec ho⟩

end TinyLlm
