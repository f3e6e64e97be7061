/-
# `TinyLlm.Lib.Utf8` — UTF-8 read byte by byte, errors replaced

A decoder that never fails: bytes are held while they begin the encoding of a
character, and bytes that turn out to begin none come to one replacement
character (`step`, `scan`).  `decode` reads a whole stream, `decodeAll` one
piece after the other, each for itself.

Piecewise reading never comes to fewer characters, and to as many only if no
piece ends inside an encoding that the next byte carries on:
`decodeAll_eq_iff`.
-/
import Mathlib.Data.List.Basic
import Mathlib.Data.List.Infix

namespace Utf8

/-! ## Encodings -/

/-- The least second byte behind the first byte `a`. -/
def low (a : Nat) : Nat := if a = 0xE0 then 0xA0 else if a = 0xF0 then 0x90 else 0x80

/-- The greatest second byte behind the first byte `a`. -/
def high (a : Nat) : Nat := if a = 0xED then 0x9F else if a = 0xF4 then 0x8F else 0xBF

/-- `b` may stand behind the first byte `a`. -/
def Second (a b : UInt8) : Prop := low a.toNat ≤ b.toNat ∧ b.toNat ≤ high a.toNat

/-- `b` may stand further behind. -/
def Tail (b : UInt8) : Prop := 0x80 ≤ b.toNat ∧ b.toNat ≤ 0xBF

instance (a b : UInt8) : Decidable (Second a b) := inferInstanceAs (Decidable (_ ∧ _))

instance (b : UInt8) : Decidable (Tail b) := inferInstanceAs (Decidable (_ ∧ _))

/-- What a byte behind the first adds to the code point. -/
def low6 (b : UInt8) : Nat := b.toNat - 0x80

/-- The character that a sequence encodes. -/
def whole : List UInt8 → Option Char
  | [a] => if a.toNat < 0x80 then some (Char.ofNat a.toNat) else none
  | [a, b] =>
      if 0xC2 ≤ a.toNat ∧ a.toNat < 0xE0 ∧ Second a b then
        some (Char.ofNat ((a.toNat - 0xC0) * 64 + low6 b))
      else none
  | [a, b, c] =>
      if 0xE0 ≤ a.toNat ∧ a.toNat < 0xF0 ∧ Second a b ∧ Tail c then
        some (Char.ofNat (((a.toNat - 0xE0) * 64 + low6 b) * 64 + low6 c))
      else none
  | [a, b, c, d] =>
      if 0xF0 ≤ a.toNat ∧ a.toNat < 0xF5 ∧ Second a b ∧ Tail c ∧ Tail d then
        some (Char.ofNat ((((a.toNat - 0xF0) * 64 + low6 b) * 64 + low6 c) * 64 + low6 d))
      else none
  | _ => none

/-- Sequences that begin an encoding and are none yet. -/
def Begins : List UInt8 → Prop
  | [a] => 0xC2 ≤ a.toNat ∧ a.toNat < 0xF5
  | [a, b] => 0xE0 ≤ a.toNat ∧ a.toNat < 0xF5 ∧ Second a b
  | [a, b, c] => 0xF0 ≤ a.toNat ∧ a.toNat < 0xF5 ∧ Second a b ∧ Tail c
  | _ => False

instance : DecidablePred Begins := fun p =>
  match p with
  | [] => inferInstanceAs (Decidable False)
  | [a] => inferInstanceAs (Decidable (0xC2 ≤ a.toNat ∧ a.toNat < 0xF5))
  | [a, b] => inferInstanceAs (Decidable (0xE0 ≤ a.toNat ∧ a.toNat < 0xF5 ∧ Second a b))
  | [a, b, c] =>
      inferInstanceAs (Decidable (0xF0 ≤ a.toNat ∧ a.toNat < 0xF5 ∧ Second a b ∧ Tail c))
  | _ :: _ :: _ :: _ :: _ => inferInstanceAs (Decidable False)

/-- No encoding is overlong, and none is of a surrogate or beyond the last code
point. -/
theorem second_iff {a b : UInt8} :
    Second a b ↔ Tail b ∧ (a.toNat = 0xE0 → 0xA0 ≤ b.toNat) ∧ (a.toNat = 0xED → b.toNat ≤ 0x9F) ∧
      (a.toNat = 0xF0 → 0x90 ≤ b.toNat) ∧ (a.toNat = 0xF4 → b.toNat ≤ 0x8F) := by
  unfold Second Tail low high
  split_ifs <;> omega

section sizes

variable {c : Char}

theorem encode_one (h : c.toNat < 0x80) :
    String.utf8EncodeChar c = [UInt8.ofNat c.toNat] := by
  unfold String.utf8EncodeChar
  exact if_pos (Nat.le_of_lt_succ h)

theorem encode_two (h : 0x80 ≤ c.toNat) (h' : c.toNat < 0x800) :
    String.utf8EncodeChar c =
      [UInt8.ofNat (c.toNat / 64 + 0xC0), UInt8.ofNat (c.toNat % 64 + 0x80)] := by
  have hmod : c.toNat / 64 % 0x20 = c.toNat / 64 := Nat.mod_eq_of_lt (by omega)
  rw [← hmod]
  unfold String.utf8EncodeChar
  exact (if_neg (Nat.not_le.mpr h)).trans (if_pos (Nat.le_of_lt_succ h'))

theorem encode_three (h : 0x800 ≤ c.toNat) (h' : c.toNat < 0x10000) :
    String.utf8EncodeChar c =
      [UInt8.ofNat (c.toNat / 4096 + 0xE0), UInt8.ofNat (c.toNat / 64 % 64 + 0x80),
        UInt8.ofNat (c.toNat % 64 + 0x80)] := by
  have hmod : c.toNat / 4096 % 0x10 = c.toNat / 4096 := Nat.mod_eq_of_lt (by omega)
  have hone : ¬ c.toNat ≤ 0x7f := by omega
  rw [← hmod]
  unfold String.utf8EncodeChar
  exact (if_neg hone).trans ((if_neg (Nat.not_le.mpr h)).trans (if_pos (Nat.le_of_lt_succ h')))

theorem encode_four (h : 0x10000 ≤ c.toNat) :
    String.utf8EncodeChar c =
      [UInt8.ofNat (c.toNat / 262144 + 0xF0), UInt8.ofNat (c.toNat / 4096 % 64 + 0x80),
        UInt8.ofNat (c.toNat / 64 % 64 + 0x80), UInt8.ofNat (c.toNat % 64 + 0x80)] := by
  have hlt : c.toNat < 0x110000 := by
    have : c.toNat < 0xD800 ∨ 0xDFFF < c.toNat ∧ c.toNat < 0x110000 := c.valid
    omega
  have hmod : c.toNat / 262144 % 0x08 = c.toNat / 262144 := Nat.mod_eq_of_lt (by omega)
  have hone : ¬ c.toNat ≤ 0x7f := by omega
  have htwo : ¬ c.toNat ≤ 0x7ff := by omega
  rw [← hmod]
  unfold String.utf8EncodeChar
  exact (if_neg hone).trans ((if_neg htwo).trans (if_neg (Nat.not_le.mpr h)))

end sizes

theorem toNat_byte {n : Nat} (h : n < 256) : (UInt8.ofNat n).toNat = n := by
  rw [UInt8.toNat_ofNat', Nat.mod_eq_of_lt h]

theorem ofNat_of_eq {n : Nat} {a : UInt8} (h : n = a.toNat) : UInt8.ofNat n = a := by
  rw [h, UInt8.ofNat_toNat]

theorem toNat_ofNat {v : Nat} (h : v < 0xD800 ∨ 0xDFFF < v ∧ v < 0x110000) :
    (Char.ofNat v).toNat = v := by
  have hvalid : v.isValidChar := h
  rw [Char.ofNat, dif_pos hvalid]
  rfl

/-- An encoding is read as its character. -/
theorem whole_encode (c : Char) : whole (String.utf8EncodeChar c) = some c := by
  have hvalid : c.toNat < 0xD800 ∨ 0xDFFF < c.toNat ∧ c.toNat < 0x110000 := c.valid
  by_cases h₁ : c.toNat < 0x80
  · have ha := toNat_byte (n := c.toNat) (by omega)
    rw [encode_one h₁, whole, if_pos (by omega), ha, Char.ofNat_toNat]
  · by_cases h₂ : c.toNat < 0x800
    · have ha := toNat_byte (n := c.toNat / 64 + 0xC0) (by omega)
      have hb := toNat_byte (n := c.toNat % 64 + 0x80) (by omega)
      rw [encode_two (by omega) h₂]
      generalize UInt8.ofNat (c.toNat / 64 + 0xC0) = a at ha ⊢
      generalize UInt8.ofNat (c.toNat % 64 + 0x80) = b at hb ⊢
      have hsecond : Second a b := by
        rw [second_iff, Tail]
        omega
      have hv : (a.toNat - 0xC0) * 64 + low6 b = c.toNat := by
        unfold low6
        omega
      rw [whole, if_pos ⟨by omega, by omega, hsecond⟩, hv, Char.ofNat_toNat]
    · by_cases h₃ : c.toNat < 0x10000
      · have ha := toNat_byte (n := c.toNat / 4096 + 0xE0) (by omega)
        have hb := toNat_byte (n := c.toNat / 64 % 64 + 0x80) (by omega)
        have hd := toNat_byte (n := c.toNat % 64 + 0x80) (by omega)
        rw [encode_three (by omega) h₃]
        generalize UInt8.ofNat (c.toNat / 4096 + 0xE0) = a at ha ⊢
        generalize UInt8.ofNat (c.toNat / 64 % 64 + 0x80) = b at hb ⊢
        generalize UInt8.ofNat (c.toNat % 64 + 0x80) = d at hd ⊢
        have hsecond : Second a b := by
          rw [second_iff, Tail]
          omega
        have htail : Tail d := by
          rw [Tail]
          omega
        have hv : ((a.toNat - 0xE0) * 64 + low6 b) * 64 + low6 d = c.toNat := by
          unfold low6
          omega
        rw [whole, if_pos ⟨by omega, by omega, hsecond, htail⟩, hv, Char.ofNat_toNat]
      · have ha := toNat_byte (n := c.toNat / 262144 + 0xF0) (by omega)
        have hb := toNat_byte (n := c.toNat / 4096 % 64 + 0x80) (by omega)
        have hd := toNat_byte (n := c.toNat / 64 % 64 + 0x80) (by omega)
        have he := toNat_byte (n := c.toNat % 64 + 0x80) (by omega)
        rw [encode_four (by omega)]
        generalize UInt8.ofNat (c.toNat / 262144 + 0xF0) = a at ha ⊢
        generalize UInt8.ofNat (c.toNat / 4096 % 64 + 0x80) = b at hb ⊢
        generalize UInt8.ofNat (c.toNat / 64 % 64 + 0x80) = d at hd ⊢
        generalize UInt8.ofNat (c.toNat % 64 + 0x80) = e at he ⊢
        have hsecond : Second a b := by
          rw [second_iff, Tail]
          omega
        have htail : Tail d ∧ Tail e := by
          rw [Tail, Tail]
          omega
        have hv : (((a.toNat - 0xF0) * 64 + low6 b) * 64 + low6 d) * 64 + low6 e = c.toNat := by
          unfold low6
          omega
        rw [whole, if_pos ⟨by omega, by omega, hsecond, htail⟩, hv, Char.ofNat_toNat]

/-- A sequence that is a character is that character's encoding. -/
theorem encode_of_whole {p : List UInt8} {c : Char} (h : whole p = some c) :
    String.utf8EncodeChar c = p := by
  unfold whole at h
  split at h
  · next a =>
      split at h
      · next ha =>
          have hv := toNat_ofNat (v := a.toNat) (by omega)
          obtain rfl := Option.some.inj h
          rw [encode_one (by omega), hv, UInt8.ofNat_toNat]
      · cases h
  · next a b =>
      split at h
      · next hab =>
          obtain ⟨ha, ha', hb⟩ := hab
          obtain ⟨⟨hb, hb'⟩, -⟩ := second_iff.mp hb
          have hv := toNat_ofNat (v := (a.toNat - 0xC0) * 64 + low6 b) (by unfold low6; omega)
          obtain rfl := Option.some.inj h
          unfold low6 at hv ⊢
          rw [encode_two (by omega) (by omega), ofNat_of_eq (a := a) (by omega),
            ofNat_of_eq (a := b) (by omega)]
      · cases h
  · next a b d =>
      split at h
      · next hab =>
          obtain ⟨ha, ha', hb, hd, hd'⟩ := hab
          obtain ⟨⟨hb, hb'⟩, hsecond⟩ := second_iff.mp hb
          have hv := toNat_ofNat (v := ((a.toNat - 0xE0) * 64 + low6 b) * 64 + low6 d)
            (by unfold low6; omega)
          obtain rfl := Option.some.inj h
          unfold low6 at hv ⊢
          rw [encode_three (by omega) (by omega), ofNat_of_eq (a := a) (by omega),
            ofNat_of_eq (a := b) (by omega), ofNat_of_eq (a := d) (by omega)]
      · cases h
  · next a b d e =>
      split at h
      · next hab =>
          obtain ⟨ha, ha', hb, ⟨hd, hd'⟩, he, he'⟩ := hab
          obtain ⟨⟨hb, hb'⟩, hsecond⟩ := second_iff.mp hb
          have hv := toNat_ofNat
            (v := (((a.toNat - 0xF0) * 64 + low6 b) * 64 + low6 d) * 64 + low6 e)
            (by unfold low6; omega)
          obtain rfl := Option.some.inj h
          unfold low6 at hv ⊢
          rw [encode_four (by omega), ofNat_of_eq (a := a) (by omega),
            ofNat_of_eq (a := b) (by omega), ofNat_of_eq (a := d) (by omega),
            ofNat_of_eq (a := e) (by omega)]
      · cases h
  · cases h

/-! ## Beginnings -/

/-- A proper part of a character's sequence begins it. -/
theorem begins_of_whole : ∀ {p t : List UInt8} {c : Char}, whole (p ++ t) = some c → p ≠ [] →
    t ≠ [] → Begins p
  | [], _, _, _, hp, _ => absurd rfl hp
  | _, [], _, _, _, ht => absurd rfl ht
  | [a], [b], _, h, _, _ => by
      simp only [whole, List.cons_append, List.nil_append, Option.ite_none_right_eq_some] at h
      exact ⟨h.1.1, by omega⟩
  | [a], [b, d], _, h, _, _ => by
      simp only [whole, List.cons_append, List.nil_append, Option.ite_none_right_eq_some] at h
      exact ⟨by omega, by omega⟩
  | [a], [b, d, e], _, h, _, _ => by
      simp only [whole, List.cons_append, List.nil_append, Option.ite_none_right_eq_some] at h
      exact ⟨by omega, h.1.2.1⟩
  | [a, b], [d], _, h, _, _ => by
      simp only [whole, List.cons_append, List.nil_append, Option.ite_none_right_eq_some] at h
      exact ⟨h.1.1, by omega, h.1.2.2.1⟩
  | [a, b], [d, e], _, h, _, _ => by
      simp only [whole, List.cons_append, List.nil_append, Option.ite_none_right_eq_some] at h
      exact ⟨by omega, h.1.2.1, h.1.2.2.1⟩
  | [a, b, d], [e], _, h, _, _ => by
      simp only [whole, List.cons_append, List.nil_append, Option.ite_none_right_eq_some] at h
      exact ⟨h.1.1, h.1.2.1, h.1.2.2.1, h.1.2.2.2.1⟩
  | [_], _ :: _ :: _ :: _ :: _, _, h, _, _ => by cases h
  | [_, _], _ :: _ :: _ :: _, _, h, _, _ => by cases h
  | [_, _, _], _ :: _ :: _, _, h, _, _ => by cases h
  | [_, _, _, _], _ :: _, _, h, _, _ => by cases h
  | _ :: _ :: _ :: _ :: _ :: _, _ :: _, _, h, _, _ => by cases h

theorem whole_of_begins {p : List UInt8} (h : Begins p) : whole p = none := by
  unfold Begins at h
  split at h
  · rw [whole, if_neg (by omega)]
  · rw [whole, if_neg (by omega)]
  · rw [whole, if_neg (by omega)]
  · cases h

theorem second_low (a : UInt8) : Second a (UInt8.ofNat (low a.toNat)) := by
  have hlow : low a.toNat ≤ high a.toNat ∧ low a.toNat < 256 := by
    unfold low high
    split_ifs <;> omega
  rw [Second, toNat_byte hlow.2]
  exact ⟨le_rfl, hlow.1⟩

/-- What begins an encoding can be carried on to one. -/
theorem exists_of_begins {p : List UInt8} (h : Begins p) : ∃ q c, whole (p ++ q) = some c := by
  have htail : Tail 0x80 := by decide
  unfold Begins at h
  split at h
  · next a =>
      by_cases h₁ : a.toNat < 0xE0
      · exact ⟨[UInt8.ofNat (low a.toNat)], _, if_pos ⟨h.1, h₁, second_low a⟩⟩
      · by_cases h₂ : a.toNat < 0xF0
        · exact ⟨[UInt8.ofNat (low a.toNat), 0x80], _,
            if_pos ⟨Nat.not_lt.mp h₁, h₂, second_low a, htail⟩⟩
        · exact ⟨[UInt8.ofNat (low a.toNat), 0x80, 0x80], _,
            if_pos ⟨Nat.not_lt.mp h₂, h.2, second_low a, htail, htail⟩⟩
  · next a b =>
      by_cases h₂ : a.toNat < 0xF0
      · exact ⟨[0x80], _, if_pos ⟨h.1, h₂, h.2.2, htail⟩⟩
      · exact ⟨[0x80, 0x80], _, if_pos ⟨Nat.not_lt.mp h₂, h.2.1, h.2.2, htail, htail⟩⟩
  · next a b d => exact ⟨[0x80], _, if_pos ⟨h.1, h.2.1, h.2.2.1, h.2.2.2, htail⟩⟩
  · cases h

/-- What a sequence comes to, and what is held of it: nothing of a character,
all of a beginning. -/
def take (p : List UInt8) : Option (List Char × List UInt8) :=
  match whole p with
  | some c => some ([c], [])
  | none => if Begins p then some ([], p) else none

theorem take_of_begins {p : List UInt8} (h : Begins p) : take p = some ([], p) := by
  rw [take, whole_of_begins h]
  exact if_pos h

/-- Taken are the parts of encodings. -/
theorem take_isSome_iff {p : List UInt8} (hp : p ≠ []) :
    (take p).isSome ↔ ∃ c, p <+: String.utf8EncodeChar c := by
  constructor
  · intro h
    unfold take at h
    split at h
    · next c hc => exact ⟨c, (encode_of_whole hc).symm ▸ List.prefix_rfl⟩
    · split at h
      · next hb =>
          obtain ⟨q, c, hc⟩ := exists_of_begins hb
          exact ⟨c, (encode_of_whole hc).symm ▸ List.prefix_append p q⟩
      · cases h
  · rintro ⟨c, q, hq⟩
    have hwhole := whole_encode c
    rw [← hq] at hwhole
    by_cases hnil : q = []
    · subst hnil
      rw [List.append_nil] at hwhole
      simp [take, hwhole]
    · rw [take_of_begins (begins_of_whole hwhole hp hnil)]
      rfl

/-! ## The decoder -/

/-- What stands for bytes that encode nothing. -/
def replacement : Char := Char.ofNat 0xFFFD

/-- What held bytes come to when nothing carries them on. -/
def flush (held : List UInt8) : List Char := if held = [] then [] else [replacement]

/-- One byte: the characters that are complete with it, and what is held from
then on.  A byte that does not carry the held ones on starts afresh. -/
def step (held : List UInt8) (b : UInt8) : List Char × List UInt8 :=
  match take (held ++ [b]) with
  | some r => r
  | none =>
      match take [b] with
      | some r => (flush held ++ r.1, r.2)
      | none => (flush held ++ [replacement], [])

/-- A run of bytes. -/
def scan : List UInt8 → List UInt8 → List Char × List UInt8
  | held, [] => ([], held)
  | held, b :: s => ((step held b).1 ++ (scan (step held b).2 s).1, (scan (step held b).2 s).2)

/-- The characters of a stream behind held bytes. -/
def decodeFrom (held s : List UInt8) : List Char := (scan held s).1 ++ flush (scan held s).2

/-- The characters of a stream. -/
def decode (s : List UInt8) : List Char := decodeFrom [] s

/-- The characters of a stream in pieces, each piece read for itself. -/
def decodeAll (cs : List (List UInt8)) : List Char := cs.flatMap decode

theorem scan_append : ∀ (held s t : List UInt8),
    scan held (s ++ t) =
      ((scan held s).1 ++ (scan (scan held s).2 t).1, (scan (scan held s).2 t).2) := by
  intro held s
  induction s generalizing held with
  | nil => intro t; simp [scan]
  | cons b s ih =>
      intro t
      simp only [List.cons_append, scan, ih, List.append_assoc]

theorem decodeFrom_append (held s t : List UInt8) :
    decodeFrom held (s ++ t) = (scan held s).1 ++ decodeFrom (scan held s).2 t := by
  simp [decodeFrom, scan_append]

theorem decodeFrom_cons (held : List UInt8) (b : UInt8) (s : List UInt8) :
    decodeFrom held (b :: s) = (step held b).1 ++ decodeFrom (step held b).2 s := by
  simp [decodeFrom, scan]

/-- The next byte carries on what is held. -/
def Carries (held s : List UInt8) : Prop := held ≠ [] ∧ ∃ b ∈ s.head?, (take (held ++ [b])).isSome

/-- Bytes that nothing carries on come to a replacement. -/
theorem decodeFrom_of_not_carries {held s : List UInt8} (h : ¬ Carries held s) :
    decodeFrom held s = flush held ++ decode s := by
  cases s with
  | nil => exact (List.append_nil _).symm
  | cons b s =>
      by_cases hnil : held = []
      · subst hnil
        rfl
      · have hnone : take (held ++ [b]) = none := by
          rw [← Option.not_isSome_iff_eq_none]
          exact fun hsome => h ⟨hnil, b, rfl, hsome⟩
        have hstep : step held b = (flush held ++ (step [] b).1, (step [] b).2) := by
          unfold step
          rw [hnone, List.nil_append]
          cases take [b] with
          | none => rfl
          | some r => rfl
        rw [decode, decodeFrom_cons, decodeFrom_cons, hstep, List.append_assoc]

/-! ## Pieces -/

/-- A byte that carries on what is held is no first byte. -/
theorem tail_of_take : ∀ {held : List UInt8} {b : UInt8}, held ≠ [] →
    (take (held ++ [b])).isSome → Tail b := by
  intro held b hne h
  have hparts : (∃ c, whole (held ++ [b]) = some c) ∨ Begins (held ++ [b]) := by
    unfold take at h
    split at h
    · next c hc => exact .inl ⟨c, hc⟩
    · split at h
      · next hb => exact .inr hb
      · cases h
  match held with
  | [] => exact absurd rfl hne
  | [a] =>
      simp only [whole, Begins, List.cons_append, List.nil_append,
        Option.ite_none_right_eq_some] at hparts
      rcases hparts with ⟨c, h⟩ | h
      · exact (second_iff.mp h.1.2.2).1
      · exact (second_iff.mp h.2.2).1
  | [a, x] =>
      simp only [whole, Begins, List.cons_append, List.nil_append,
        Option.ite_none_right_eq_some] at hparts
      rcases hparts with ⟨c, h⟩ | h
      · exact h.1.2.2.2
      · exact h.2.2.2
  | [a, x, y] =>
      simp only [whole, Begins, List.cons_append, List.nil_append,
        Option.ite_none_right_eq_some] at hparts
      rcases hparts with ⟨c, h⟩ | h
      · exact h.1.2.2.2.2
      · cases h
  | _ :: _ :: _ :: _ :: [] =>
      rcases hparts with ⟨c, h⟩ | h
      · cases h
      · cases h
  | _ :: _ :: _ :: _ :: _ :: _ =>
      rcases hparts with ⟨c, h⟩ | h
      · cases h
      · cases h

theorem take_of_tail {b : UInt8} (h : Tail b) : take [b] = none := by
  obtain ⟨h, h'⟩ := h
  have hbegins : ¬ Begins [b] := fun hb => absurd hb.1 (by omega)
  rw [take, whole, if_neg (by omega)]
  exact if_neg hbegins

theorem take_cases {p : List UInt8} {r : List Char × List UInt8} (h : take p = some r) :
    (∃ c, r = ([c], [])) ∨ r = ([], p) := by
  unfold take at h
  split at h
  · exact .inl ⟨_, (Option.some.inj h).symm⟩
  · split at h
    · exact .inr (Option.some.inj h).symm
    · cases h

theorem flush_length (held : List UInt8) : (flush held).length ≤ 1 := by
  unfold flush
  split
  · exact Nat.zero_le 1
  · exact le_rfl

/-- Held bytes come to one character more at most, and to none when they are
carried on. -/
theorem decodeFrom_length : ∀ (s held : List UInt8),
    (decodeFrom held s).length ≤ 1 + (decode s).length ∧
      (Carries held s → (decodeFrom held s).length ≤ (decode s).length) := by
  intro s
  induction s with
  | nil =>
      intro held
      refine ⟨?_, fun h => ?_⟩
      · rw [decodeFrom_of_not_carries (by rintro ⟨-, b, hb, -⟩; cases hb), List.length_append]
        exact Nat.add_le_add_right (flush_length held) _
      · obtain ⟨-, b, hb, -⟩ := h
        cases hb
  | cons b s ih =>
      intro held
      by_cases hcarries : Carries held (b :: s)
      · -- the byte is no character's first, so read afresh it is replaced
        obtain ⟨hne, b', hb, hsome⟩ := hcarries
        obtain rfl := Option.some.inj hb
        have hfresh : decode (b :: s) = replacement :: decode s := by
          rw [decode, decodeFrom_cons, step, List.nil_append, take_of_tail (tail_of_take hne hsome)]
          rfl
        have hle : (decodeFrom held (b :: s)).length ≤ 1 + (decode s).length := by
          obtain ⟨r, hr⟩ := Option.isSome_iff_exists.mp hsome
          rw [decodeFrom_cons, step, hr]
          rcases take_cases hr with ⟨c, rfl⟩ | rfl
          · rw [List.length_append]
            exact le_rfl
          · exact (ih _).1
        rw [hfresh, List.length_cons]
        exact ⟨by omega, fun _ => by omega⟩
      · rw [decodeFrom_of_not_carries hcarries, List.length_append]
        exact ⟨Nat.add_le_add_right (flush_length held) _, fun h => absurd h hcarries⟩

/-- No piece ends in what the next byte carries on. -/
def CleanCuts : List (List UInt8) → Prop
  | [] => True
  | s :: cs => ¬ Carries (scan [] s).2 cs.flatten ∧ CleanCuts cs

theorem decodeAll_cons (s : List UInt8) (cs : List (List UInt8)) :
    decodeAll (s :: cs) = (scan [] s).1 ++ (flush (scan [] s).2 ++ decodeAll cs) := by
  simp [decodeAll, decode, decodeFrom]

theorem decode_flatten_cons (s : List UInt8) (cs : List (List UInt8)) :
    decode (s :: cs).flatten = (scan [] s).1 ++ decodeFrom (scan [] s).2 cs.flatten := by
  rw [List.flatten_cons, decode, decodeFrom_append]

/-- Between clean cuts the pieces read for themselves give the stream. -/
theorem decodeAll_of_clean {cs : List (List UInt8)} (h : CleanCuts cs) :
    decodeAll cs = decode cs.flatten := by
  induction cs with
  | nil => rfl
  | cons s cs ih =>
      rw [decodeAll_cons, decode_flatten_cons, decodeFrom_of_not_carries h.1, ih h.2]

/-- Pieces come to as many characters as the stream at least, and to more where
a cut is not clean. -/
theorem decode_length : ∀ cs : List (List UInt8),
    (decode cs.flatten).length ≤ (decodeAll cs).length ∧
      (¬ CleanCuts cs → (decode cs.flatten).length < (decodeAll cs).length) := by
  intro cs
  induction cs with
  | nil => exact ⟨le_rfl, fun h => absurd trivial h⟩
  | cons s cs ih =>
      rw [decode_flatten_cons, decodeAll_cons]
      simp only [List.length_append]
      by_cases hcarries : Carries (scan [] s).2 cs.flatten
      · have hle := (decodeFrom_length cs.flatten (scan [] s).2).2 hcarries
        have hflush : (flush (scan [] s).2).length = 1 := by
          rw [flush, if_neg hcarries.1]
          rfl
        exact ⟨by omega, fun _ => by omega⟩
      · have hlen := congrArg List.length (decodeFrom_of_not_carries hcarries)
        rw [List.length_append] at hlen
        refine ⟨by omega, fun h => ?_⟩
        have hlt := ih.2 fun hcs => h ⟨hcarries, hcs⟩
        omega

theorem decodeAll_eq_iff_clean (cs : List (List UInt8)) :
    decodeAll cs = decode cs.flatten ↔ CleanCuts cs := by
  constructor
  · intro h
    by_contra hcuts
    have hlt := (decode_length cs).2 hcuts
    rw [h] at hlt
    exact absurd hlt (lt_irrefl _)
  · exact decodeAll_of_clean

/-! ## Cuts inside an encoding -/

/-- `s` ends with the beginning of a character's encoding, and the first byte
of `t` carries it on. -/
def Divides (s t : List UInt8) : Prop :=
  ∃ (p : List UInt8) (b : UInt8) (c : Char),
    p ≠ [] ∧ p <:+ s ∧ b ∈ t.head? ∧ p ++ [b] <+: String.utf8EncodeChar c

/-- Held are the last bytes read. -/
theorem scan_suffix : ∀ (s held : List UInt8), (scan held s).2 <:+ held ++ s := by
  intro s
  induction s with
  | nil => intro held; simp [scan]
  | cons b s ih =>
      intro held
      have hstep : (step held b).2 <:+ held ++ [b] := by
        unfold step
        split
        · next r hr =>
            rcases take_cases hr with ⟨c, rfl⟩ | rfl
            · exact List.nil_suffix
            · exact List.suffix_rfl
        · split
          · next r hr =>
              rcases take_cases hr with ⟨c, rfl⟩ | rfl
              · exact List.nil_suffix
              · exact List.suffix_append held [b]
          · exact List.nil_suffix
      obtain ⟨u, hu⟩ := hstep
      have happ : held ++ b :: s = u ++ ((step held b).2 ++ s) := by
        rw [← List.append_assoc, hu, List.append_assoc, List.singleton_append]
      rw [happ]
      exact (ih _).trans (List.suffix_append _ _)

/-- Within an encoding all bytes are held. -/
theorem scan_carry : ∀ {w u q : List UInt8} {c : Char}, u ≠ [] → q ≠ [] →
    whole (u ++ (w ++ q)) = some c → (scan u w).2 = u ++ w := by
  intro w
  induction w with
  | nil => intro u q c _ _ _; simp [scan]
  | cons b w ih =>
      intro u q c hu hq hwhole
      have hwhole' : whole ((u ++ [b]) ++ (w ++ q)) = some c := by simpa using hwhole
      have hbegins : Begins (u ++ [b]) := begins_of_whole hwhole' (by simp) (by simp [hq])
      have hstep : step u b = ([], u ++ [b]) := by rw [step, take_of_begins hbegins]
      have hrest := ih (by simp) hq hwhole'
      rw [List.append_assoc, List.singleton_append] at hrest
      rw [scan, hstep]
      exact hrest

/-- The beginning of an encoding is held, whatever was held before. -/
theorem scan_begins {a : UInt8} {p q held : List UInt8} {c : Char} (hq : q ≠ [])
    (hwhole : whole (a :: p ++ q) = some c) : (scan held (a :: p)).2 = a :: p := by
  have hbegins : Begins [a] := begins_of_whole (p := [a]) (t := p ++ q) hwhole (by simp)
    (by simp [hq])
  have hstep : (step held a).2 = [a] := by
    unfold step
    by_cases hnil : held = []
    · subst hnil
      rw [List.nil_append, take_of_begins hbegins]
    · have hnone : take (held ++ [a]) = none := by
        rw [← Option.not_isSome_iff_eq_none]
        intro hsome
        have htail := tail_of_take hnil hsome
        exact absurd hbegins.1 (by have := htail.2; omega)
      rw [hnone, take_of_begins hbegins]
  rw [scan, hstep]
  exact scan_carry (u := [a]) (by simp) hq hwhole

/-- **A cut is clean** unless it stands inside a character's encoding. -/
theorem carries_iff_divides (s t : List UInt8) : Carries (scan [] s).2 t ↔ Divides s t := by
  constructor
  · rintro ⟨hne, b, hb, hsome⟩
    obtain ⟨c, hc⟩ := (take_isSome_iff (by simp)).mp hsome
    have hsuffix := scan_suffix s []
    exact ⟨_, b, c, hne, hsuffix, hb, hc⟩
  · rintro ⟨p, b, c, hne, ⟨u, rfl⟩, hb, hc⟩
    have hsome := (take_isSome_iff (by simp)).mpr ⟨c, hc⟩
    obtain ⟨q, hq⟩ := hc
    have hwhole := whole_encode c
    rw [← hq, List.append_assoc] at hwhole
    obtain ⟨a, p, rfl⟩ := List.exists_cons_of_ne_nil hne
    have hheld : (scan [] (u ++ a :: p)).2 = a :: p := by
      rw [scan_append]
      exact scan_begins (by simp) hwhole
    rw [hheld]
    exact ⟨hne, b, hb, hsome⟩

/-- **Pieces and stream.**  The pieces read for themselves give the stream just
when none ends inside a character's encoding. -/
theorem decodeAll_eq_iff (cs : List (List UInt8)) :
    decodeAll cs = decode cs.flatten ↔
      ∀ before s after, cs = before ++ s :: after → ¬ Divides s after.flatten := by
  rw [decodeAll_eq_iff_clean]
  induction cs with
  | nil => simp [CleanCuts]
  | cons s cs ih =>
      rw [CleanCuts, carries_iff_divides, ih]
      constructor
      · rintro ⟨hs, hcs⟩ before s' after heq
        cases before with
        | nil =>
            obtain ⟨rfl, rfl⟩ := List.cons.inj heq
            exact hs
        | cons _ before => exact hcs before s' after (List.cons.inj heq).2
      · intro h
        refine ⟨h [] s cs rfl, fun before s' after heq => ?_⟩
        exact h (s :: before) s' after (by rw [heq]; rfl)

end Utf8
