/-
# `TinyLlm.Convert.SentencePiece` — the hand-written tokenizer reader

`load_sentencepiece` of `convert.py` on the bytes of a `tokenizer.model`: a
loop over the fields of the file and in it one over those of an entry, each
with a cursor of its own.  A step of either loop fails, leaves it or moves the
cursor on (`subStep_lt`, `topStep_lt`), so both end on every file.

`VocabFile` says which files spell a vocabulary, in the terms of
`TinyLlm.Lib.Protobuf`.  What one step does on each kind of field is a lemma
about the bytes from the cursor on, and the runs follow by induction on the
spelling (`subLoop_spells`, `topLoop_spells`).
-/
import TinyLlm.Convert.Writer
import TinyLlm.Lib.Protobuf

namespace TinyLlm.Etq

open Bytes Protobuf

/-! ## The reader -/

/-- What Python raises: an index past the end, or too few bytes to unpack. -/
inductive SpError where
  | index
  | struct
deriving DecidableEq

/-- The loop of `varint`, on the bytes from the cursor on. -/
def varintFrom : List UInt8 → Nat → Nat → Nat → Except SpError (Nat × Nat)
  | [], _, _, _ => .error .index
  | c :: rest, v, s, i =>
      let v := v ||| ((c.toNat &&& 0x7F) <<< s)
      if c.toNat &&& 0x80 = 0 then .ok (v, i + 1) else varintFrom rest v (s + 7) (i + 1)

/-- `varint(b, i)`. -/
def varint (b : List UInt8) (i : Nat) : Except SpError (Nat × Nat) := varintFrom (b.drop i) 0 0 i

section Reader
variable {F : Type} (unpack : UInt32 → F) (zero : F)

/-- The variables of the loop over an entry. -/
structure SubState (F : Type) where
  j : Nat
  piece : Option (List UInt8)
  score : F

/-- One round of the loop over an entry; `none` leaves it. -/
def subStep (sub : List UInt8) (st : SubState F) : Except SpError (Option (SubState F)) := do
  let (k2, j) ← varint sub st.j
  let f2 := k2 >>> 3
  let w2 := k2 &&& 7
  if f2 = 1 ∧ w2 = 2 then do
    let (l2, j) ← varint sub j
    .ok (some { st with j := j + l2, piece := some (slice sub j l2) })
  else if f2 = 2 ∧ w2 = 5 then
    if sub.length < j + 4 then .error .struct
    else .ok (some { st with j := j + 4, score := unpack (UInt32.ofNat (leAt sub j 4)) })
  else if w2 = 0 then do
    let (_, j) ← varint sub j
    .ok (some { st with j := j })
  else if w2 = 2 then do
    let (l2, j) ← varint sub j
    .ok (some { st with j := j + l2 })
  else if w2 = 5 then .ok (some { st with j := j + 4 })
  else .ok none

theorem varintFrom_lt :
    ∀ {bs : List UInt8} {v s i w j : Nat}, varintFrom bs v s i = .ok (w, j) → i < j
  | [], _, _, _, _, _, h => by simp [varintFrom] at h
  | c :: rest, v, s, i, w, j, h => by
      rw [varintFrom] at h
      split at h
      · cases h
        exact Nat.lt_succ_self i
      · exact Nat.lt_of_succ_lt (varintFrom_lt h)

/-- Reading a number moves the cursor on. -/
theorem varint_lt {b : List UInt8} {i w j : Nat} (h : varint b i = .ok (w, j)) : i < j :=
  varintFrom_lt h

/-- So does a round that stays in the loop. -/
theorem subStep_lt {sub : List UInt8} {st st' : SubState F}
    (h : subStep unpack sub st = .ok (some st')) :
    st.j < st'.j := by
  obtain ⟨⟨k2, j⟩, hk, h⟩ := bind_eq_ok.mp h
  have hj : st.j < j := varint_lt hk
  dsimp only at h
  split at h
  case isTrue =>
    obtain ⟨⟨l2, j'⟩, hl, h⟩ := bind_eq_ok.mp h
    have := varint_lt hl
    cases h
    exact Nat.lt_add_right l2 (hj.trans this)
  split at h
  case isTrue =>
    split at h
    · cases h
    · cases h
      exact Nat.lt_add_right 4 hj
  split at h
  case isTrue =>
    obtain ⟨⟨l2, j'⟩, hl, h⟩ := bind_eq_ok.mp h
    have := varint_lt hl
    cases h
    exact hj.trans this
  split at h
  case isTrue =>
    obtain ⟨⟨l2, j'⟩, hl, h⟩ := bind_eq_ok.mp h
    have := varint_lt hl
    cases h
    exact Nat.lt_add_right l2 (hj.trans this)
  split at h
  · cases h
    exact Nat.lt_add_right 4 hj
  · cases h

/-- The loop over an entry. -/
def subLoop (sub : List UInt8) (st : SubState F) : Except SpError (SubState F) :=
  if st.j < sub.length then
    match _hstep : subStep unpack sub st with
    | .error e => .error e
    | .ok none => .ok st
    | .ok (some st') => subLoop sub st'
  else .ok st
termination_by sub.length - st.j
decreasing_by
  have := subStep_lt unpack _hstep
  omega

/-- The variables of the loop over the file. -/
structure TopState (F : Type) where
  i : Nat
  pieces : List (List UInt8)
  scores : List F

/-- `piece.replace("▁".encode(), b" ")`. -/
def replaceMarker : List UInt8 → List UInt8
  | 0xE2 :: 0x96 :: 0x81 :: rest => 0x20 :: replaceMarker rest
  | b :: rest => b :: replaceMarker rest
  | [] => []

/-- One round of the loop over the file; `none` leaves it. -/
def topStep (buf : List UInt8) (st : TopState F) : Except SpError (Option (TopState F)) := do
  let (key, i) ← varint buf st.i
  let fld := key >>> 3
  let wt := key &&& 7
  if fld = 1 ∧ wt = 2 then do
    let (ln, i) ← varint buf i
    let sub ← subLoop unpack (slice buf i ln) ⟨0, none, zero⟩
    match sub.piece with
    | some piece =>
      .ok (some ⟨i + ln, st.pieces ++ [replaceMarker piece], st.scores ++ [sub.score]⟩)
    | none => .ok (some { st with i := i + ln })
  else if wt = 2 then do
    let (ln, i) ← varint buf i
    .ok (some { st with i := i + ln })
  else if wt = 0 then do
    let (_, i) ← varint buf i
    .ok (some { st with i := i })
  else if wt = 5 then .ok (some { st with i := i + 4 })
  else .ok none

theorem topStep_lt {buf : List UInt8} {st st' : TopState F}
    (h : topStep unpack zero buf st = .ok (some st')) :
    st.i < st'.i := by
  obtain ⟨⟨key, i⟩, hk, h⟩ := bind_eq_ok.mp h
  have hi : st.i < i := varint_lt hk
  dsimp only at h
  split at h
  case isTrue =>
    obtain ⟨⟨ln, i'⟩, hl, h⟩ := bind_eq_ok.mp h
    obtain ⟨sub, -, h⟩ := bind_eq_ok.mp h
    have := varint_lt hl
    dsimp only at h
    split at h
    · cases h
      exact Nat.lt_add_right ln (hi.trans this)
    · cases h
      exact Nat.lt_add_right ln (hi.trans this)
  split at h
  case isTrue =>
    obtain ⟨⟨ln, i'⟩, hl, h⟩ := bind_eq_ok.mp h
    have := varint_lt hl
    cases h
    exact Nat.lt_add_right ln (hi.trans this)
  split at h
  case isTrue =>
    obtain ⟨⟨ln, i'⟩, hl, h⟩ := bind_eq_ok.mp h
    have := varint_lt hl
    cases h
    exact hi.trans this
  split at h
  · cases h
    exact Nat.lt_add_right 4 hi
  · cases h

/-- The loop over the file. -/
def topLoop (buf : List UInt8) (st : TopState F) : Except SpError (TopState F) :=
  if st.i < buf.length then
    match _hstep : topStep unpack zero buf st with
    | .error e => .error e
    | .ok none => .ok st
    | .ok (some st') => topLoop buf st'
  else .ok st
termination_by buf.length - st.i
decreasing_by
  have := topStep_lt unpack zero _hstep
  omega

/-- `f"<unused{k}>".encode()`. -/
def unused (k : Nat) : List UInt8 := ascii "<unused" ++ ascii (Nat.repr k) ++ ascii ">"

/-- `xs[:n]`, a negative bound counted from the end. -/
def takeTo {α : Type} (n : Int) (xs : List α) : List α :=
  if 0 ≤ n then xs.take n.toNat else xs.take (xs.length - (-n).toNat)

/-- `load_sentencepiece`, on the bytes of the file. -/
def loadSentencepiece (buf : List UInt8) (vocabSize : Int) :
    Except SpError (List (List UInt8) × List F) := do
  let st ← topLoop unpack zero buf ⟨0, [], []⟩
  let (pieces, scores) :=
    if (st.pieces.length : Int) < vocabSize then
      (st.pieces ++ (List.range' st.pieces.length (vocabSize.toNat - st.pieces.length)).map unused,
        st.scores ++ List.replicate (vocabSize - st.scores.length).toNat zero)
    else (st.pieces, st.scores)
  .ok (takeTo vocabSize pieces, takeTo vocabSize scores)

end Reader

/-! ## Files that spell a vocabulary -/

/-- An entry of the vocabulary; a score is the bits of its float. -/
structure Entry where
  piece : List UInt8
  score : Option UInt32

/-- The spellings of an entry's fields: the piece and the score at most once
each and in any order, any other fields among them. -/
inductive EntryFields : Option (List UInt8) → Option UInt32 → List UInt8 → Prop
  | done : EntryFields none none []
  | other {p : Option (List UInt8)} {s : Option UInt32} {fld wt : Nat} {f rest : List UInt8} :
      ¬ (fld = 1 ∧ wt = 2) → ¬ (fld = 2 ∧ wt = 5) → Field fld wt f → EntryFields p s rest →
      EntryFields p s (f ++ rest)
  | piece {s : Option UInt32} {data f rest : List UInt8} :
      BytesField 1 data f → EntryFields none s rest → EntryFields (some data) s (f ++ rest)
  | score {p : Option (List UInt8)} {bits : UInt32} {key rest : List UInt8} :
      Key 2 5 key → EntryFields p none rest →
      EntryFields p (some bits) (key ++ (toLE 4 bits.toNat ++ rest))

/-- The spellings of a vocabulary: an entry is a field 1 of bytes, with any
other fields between the entries. -/
inductive VocabFile : List Entry → List UInt8 → Prop
  | done : VocabFile [] []
  | other {es : List Entry} {fld wt : Nat} {f rest : List UInt8} :
      ¬ (fld = 1 ∧ wt = 2) → Field fld wt f → VocabFile es rest → VocabFile es (f ++ rest)
  | entry {e : Entry} {es : List Entry} {sub f rest : List UInt8} :
      EntryFields (some e.piece) e.score sub → BytesField 1 sub f → VocabFile es rest →
      VocabFile (e :: es) (f ++ rest)

/-! ## At the cursor -/

section Cursor
variable {b x rest : List UInt8} {i : Nat}

theorem drop_past (h : b.drop i = x ++ rest) : b.drop (i + x.length) = rest := by
  rw [← List.drop_drop, h, List.drop_left]

theorem slice_at (h : b.drop i = x ++ rest) : slice b i x.length = x := by
  rw [slice, h, List.take_left]

theorem lt_at (h : b.drop i = x ++ rest) (hx : x ≠ []) : i < b.length := by
  rw [← Nat.not_le, ← List.drop_eq_nil_iff, h, List.append_eq_nil_iff]
  exact fun h => hx h.1

theorem le_at (h : b.drop i = x ++ rest) (hi : i < b.length) : i + x.length ≤ b.length := by
  have := congrArg List.length h
  rw [List.length_drop, List.length_append] at this
  omega

/-- The seven bits that count of a byte, and its mark. -/
theorem byte_bits (c : UInt8) :
    c.toNat &&& 0x7F = c.toNat % 128 ∧ (c.toNat &&& 0x80 = 0 ↔ c.toNat < 128) := by
  have hlt := c.toNat_lt
  refine ⟨Nat.and_two_pow_sub_one_eq_mod c.toNat 7, ?_⟩
  rw [show (0x80 : Nat) = 2 ^ 7 from rfl, and_top hlt]
  omega

theorem varintFrom_varint {w : Nat} {bs : List UInt8} (h : Varint w bs) :
    ∀ {v s i : Nat} {rest : List UInt8}, v < 2 ^ s →
      varintFrom (bs ++ rest) v s i = .ok (v + 2 ^ s * w, i + bs.length) := by
  induction h with
  | @last c hc =>
    intro v s i rest hv
    obtain ⟨hlow, hmark⟩ := byte_bits c
    rw [List.singleton_append, varintFrom, if_pos (hmark.mpr hc), hlow, Nat.mod_eq_of_lt hc,
      Nat.shiftLeft_eq, Nat.mul_comm, Nat.or_comm, ← Nat.two_pow_add_eq_or_of_lt hv, Nat.add_comm]
    rfl
  | @more c w bs hc _ ih =>
    intro v s i rest hv
    have hlt := c.toNat_lt
    obtain ⟨hlow, hmark⟩ := byte_bits c
    have hnot : ¬ c.toNat &&& 0x80 = 0 := fun h0 => absurd (hmark.mp h0) (not_lt.mpr hc)
    have hv' : v ||| (c.toNat % 128) <<< s = v + 2 ^ s * (c.toNat % 128) := by
      rw [Nat.shiftLeft_eq, Nat.mul_comm,
        Nat.or_comm, ← Nat.two_pow_add_eq_or_of_lt hv, Nat.add_comm]
    have hbound : v + 2 ^ s * (c.toNat % 128) < 2 ^ (s + 7) := by
      have hm : c.toNat % 128 ≤ 127 := by omega
      have := Nat.mul_le_mul_left (2 ^ s) hm
      rw [Nat.pow_add]
      omega
    rw [List.cons_append, varintFrom, if_neg hnot, hlow, hv', ih hbound, List.length_cons]
    congr 2
    · rw [Nat.pow_add, show c.toNat % 128 = c.toNat - 128 by omega]
      ring
    · omega

/-- Every spelling of a number is read as the number. -/
theorem varint_at {w : Nat} (hx : Varint w x) (h : b.drop i = x ++ rest) :
    varint b i = .ok (w, i + x.length) := by
  rw [varint, h, varintFrom_varint hx (Nat.pow_pos (by decide)), Nat.zero_add,
    Nat.pow_zero, Nat.one_mul]

/-- The two parts of a key. -/
theorem key_parts (fld : Nat) {wt : Nat} (h : wt < 8) :
    (fld * 8 + wt) >>> 3 = fld ∧ (fld * 8 + wt) &&& 7 = wt := by
  rw [Nat.shiftRight_eq_div_pow, show (7 : Nat) = 2 ^ 3 - 1 from rfl,
    Nat.and_two_pow_sub_one_eq_mod]
  omega

end Cursor

/-! ## One entry -/

section Runs
variable {F : Type} (unpack : UInt32 → F) (zero : F)

section Sub
variable {sub f rest : List UInt8} {st : SubState F}

/-- Another field is skipped. -/
theorem subStep_other {fld wt : Nat} (h₁ : ¬ (fld = 1 ∧ wt = 2)) (h₂ : ¬ (fld = 2 ∧ wt = 5))
    (hf : Field fld wt f) (h : sub.drop st.j = f ++ rest) :
    subStep unpack sub st = .ok (some { st with j := st.j + f.length }) := by
  cases hf with
  | @mk key payload hkey hp =>
    obtain ⟨hfld, hwt⟩ := key_parts fld hp.lt
    rw [List.append_assoc] at h
    have hnext := drop_past h
    refine bind_eq_ok.mpr ⟨_, varint_at hkey h, ?_⟩
    dsimp only
    rw [hfld, hwt, if_neg h₁, if_neg h₂, List.length_append, ← Nat.add_assoc]
    cases hp with
    | varint hv =>
      rw [if_pos rfl]
      exact bind_eq_ok.mpr ⟨_, varint_at hv hnext, rfl⟩
    | @bytes len data hl =>
      rw [List.append_assoc] at hnext
      rw [if_neg (by decide), if_pos rfl, List.length_append, ← Nat.add_assoc]
      exact bind_eq_ok.mpr ⟨_, varint_at hl hnext, rfl⟩
    | fixed32 hlen =>
      rw [if_neg (by decide), if_neg (by decide), if_pos rfl, hlen]

/-- The piece is taken. -/
theorem subStep_piece {data : List UInt8} (hf : BytesField 1 data f)
    (h : sub.drop st.j = f ++ rest) :
    subStep unpack sub st = .ok (some { st with j := st.j + f.length, piece := some data }) := by
  cases hf with
  | @mk key len hkey hl =>
    obtain ⟨hfld, hwt⟩ := key_parts 1 (show 2 < 8 by decide)
    rw [List.append_assoc, List.append_assoc] at h
    have hlen := drop_past h
    have hdata := drop_past hlen
    refine bind_eq_ok.mpr ⟨_, varint_at hkey h, ?_⟩
    dsimp only
    rw [hfld, hwt, if_pos ⟨rfl, rfl⟩, List.length_append, List.length_append, ← Nat.add_assoc,
      ← Nat.add_assoc]
    refine bind_eq_ok.mpr ⟨_, varint_at hl hlen, ?_⟩
    dsimp only
    rw [slice_at hdata]

/-- So is the score. -/
theorem subStep_score {key : List UInt8} {bits : UInt32} (hkey : Key 2 5 key)
    (h : sub.drop st.j = key ++ (toLE 4 bits.toNat ++ rest)) :
    subStep unpack sub st =
      .ok (some { st with j := st.j + (key.length + 4), score := unpack bits }) := by
  obtain ⟨hfld, hwt⟩ := key_parts 2 (show 5 < 8 by decide)
  have hnext := drop_past h
  have hslice := slice_at hnext
  have hroom := le_at hnext (lt_at hnext (by rw [← List.length_pos_iff, length_toLE]; decide))
  rw [length_toLE] at hroom hslice
  have hread : leAt sub (st.j + key.length) 4 = bits.toNat := by
    rw [leAt, hslice, ofLE_toLE_of_lt bits.toNat_lt]
  refine bind_eq_ok.mpr ⟨_, varint_at hkey h, ?_⟩
  dsimp only
  rw [hfld, hwt, if_neg (by decide), if_pos ⟨rfl, rfl⟩, if_neg (not_lt.mpr hroom), hread,
    UInt32.ofNat_toNat, Nat.add_assoc]

theorem subLoop_done (h : ¬ st.j < sub.length) : subLoop unpack sub st = .ok st := by
  rw [subLoop, if_neg h]

theorem subLoop_step {st' : SubState F} (h : st.j < sub.length)
    (hstep : subStep unpack sub st = .ok (some st')) :
    subLoop unpack sub st = subLoop unpack sub st' := by
  rw [subLoop, if_pos h]
  split
  case h_1 e heq => exact absurd (hstep.symm.trans heq) nofun
  case h_2 heq => exact absurd (hstep.symm.trans heq) nofun
  case h_3 st'' heq => rw [Option.some.inj (Except.ok.inj (hstep.symm.trans heq))]

/-- **The run over an entry** ends behind its fields with the piece and the
score it spells. -/
theorem subLoop_spells {p : Option (List UInt8)} {s : Option UInt32} {bs : List UInt8}
    (h : EntryFields p s bs) :
    ∀ {st : SubState F}, sub.drop st.j = bs →
      subLoop unpack sub st =
      .ok ⟨st.j + bs.length, p.or st.piece, (s.map unpack).getD st.score⟩ := by
  induction h with
  | done =>
    intro st hdrop
    exact subLoop_done unpack (not_lt.mpr (List.drop_eq_nil_iff.mp hdrop))
  | other h₁ h₂ hf _ ih =>
    intro st hdrop
    rw [subLoop_step unpack (lt_at hdrop hf.ne_nil) (subStep_other unpack h₁ h₂ hf hdrop),
      ih (drop_past hdrop), List.length_append, Nat.add_assoc]
  | piece hf _ ih =>
    intro st hdrop
    rw [subLoop_step unpack (lt_at hdrop hf.ne_nil) (subStep_piece unpack hf hdrop),
      ih (drop_past hdrop), List.length_append, Nat.add_assoc]
    rfl
  | score hkey _ ih =>
    intro st hdrop
    have hrest := drop_past (drop_past hdrop)
    rw [length_toLE, Nat.add_assoc] at hrest
    rw [subLoop_step unpack (lt_at hdrop (Varint.ne_nil hkey))
      (subStep_score unpack hkey hdrop), ih hrest, List.length_append, List.length_append,
      length_toLE, Nat.add_assoc, Nat.add_assoc]
    rfl

end Sub

/-! ## The file -/

section Top
variable {buf f rest : List UInt8} {st : TopState F}

/-- Another field is skipped. -/
theorem topStep_other {fld wt : Nat} (h₁ : ¬ (fld = 1 ∧ wt = 2)) (hf : Field fld wt f)
    (h : buf.drop st.i = f ++ rest) :
    topStep unpack zero buf st = .ok (some { st with i := st.i + f.length }) := by
  cases hf with
  | @mk key payload hkey hp =>
    obtain ⟨hfld, hwt⟩ := key_parts fld hp.lt
    rw [List.append_assoc] at h
    have hnext := drop_past h
    refine bind_eq_ok.mpr ⟨_, varint_at hkey h, ?_⟩
    dsimp only
    rw [hfld, hwt, if_neg h₁, List.length_append, ← Nat.add_assoc]
    cases hp with
    | varint hv =>
      rw [if_neg (by decide), if_pos rfl]
      exact bind_eq_ok.mpr ⟨_, varint_at hv hnext, rfl⟩
    | @bytes len data hl =>
      rw [List.append_assoc] at hnext
      rw [if_pos rfl, List.length_append, ← Nat.add_assoc]
      exact bind_eq_ok.mpr ⟨_, varint_at hl hnext, rfl⟩
    | fixed32 hlen =>
      rw [if_neg (by decide), if_neg (by decide), if_pos rfl, hlen]

/-- An entry is read through and added. -/
theorem topStep_entry {e : Entry} {sub : List UInt8} (he : EntryFields (some e.piece) e.score sub)
    (hf : BytesField 1 sub f) (h : buf.drop st.i = f ++ rest) :
    topStep unpack zero buf st = .ok (some ⟨st.i + f.length, st.pieces ++ [replaceMarker e.piece],
      st.scores ++ [(e.score.map unpack).getD zero]⟩) := by
  cases hf with
  | @mk key len hkey hl =>
    obtain ⟨hfld, hwt⟩ := key_parts 1 (show 2 < 8 by decide)
    rw [List.append_assoc, List.append_assoc] at h
    have hlen := drop_past h
    have hdata := drop_past hlen
    refine bind_eq_ok.mpr ⟨_, varint_at hkey h, ?_⟩
    dsimp only
    rw [hfld, hwt, if_pos ⟨rfl, rfl⟩, List.length_append, List.length_append, ← Nat.add_assoc,
      ← Nat.add_assoc]
    refine bind_eq_ok.mpr ⟨_, varint_at hl hlen, ?_⟩
    dsimp only
    rw [slice_at hdata]
    exact bind_eq_ok.mpr ⟨_, subLoop_spells unpack he rfl, rfl⟩

theorem topLoop_done (h : ¬ st.i < buf.length) : topLoop unpack zero buf st = .ok st := by
  rw [topLoop, if_neg h]

theorem topLoop_step {st' : TopState F} (h : st.i < buf.length)
    (hstep : topStep unpack zero buf st = .ok (some st')) :
    topLoop unpack zero buf st = topLoop unpack zero buf st' := by
  rw [topLoop, if_pos h]
  split
  case h_1 e heq => exact absurd (hstep.symm.trans heq) nofun
  case h_2 heq => exact absurd (hstep.symm.trans heq) nofun
  case h_3 st'' heq => rw [Option.some.inj (Except.ok.inj (hstep.symm.trans heq))]

/-- **The run over the file** adds the entries it spells, in their order. -/
theorem topLoop_spells {es : List Entry} {bs : List UInt8} (h : VocabFile es bs) :
    ∀ {st : TopState F}, buf.drop st.i = bs →
      topLoop unpack zero buf st =
      .ok ⟨st.i + bs.length, st.pieces ++ es.map fun e => replaceMarker e.piece,
        st.scores ++ es.map fun e => (e.score.map unpack).getD zero⟩ := by
  induction h with
  | done =>
    intro st hdrop
    rw [topLoop_done unpack zero (not_lt.mpr (List.drop_eq_nil_iff.mp hdrop)),
      List.map_nil, List.map_nil, List.append_nil, List.append_nil]
    rfl
  | other h₁ hf _ ih =>
    intro st hdrop
    rw [topLoop_step unpack zero (lt_at hdrop hf.ne_nil) (topStep_other unpack zero h₁ hf hdrop),
      ih (drop_past hdrop), List.length_append, Nat.add_assoc]
  | entry he hf _ ih =>
    intro st hdrop
    rw [topLoop_step unpack zero (lt_at hdrop hf.ne_nil) (topStep_entry unpack zero he hf hdrop),
      ih (drop_past hdrop), List.length_append, Nat.add_assoc, List.append_assoc, List.append_assoc]
    rfl

end Top

theorem takeTo_of_length {α : Type} {n : Int} {xs : List α} (h : (xs.length : Int) = n) :
    takeTo n xs = xs := by
  rw [takeTo, if_pos (by omega), List.take_of_length_le (by omega)]

/-- **The vocabulary is recovered.**  Every file that spells the entries is
read to its end, and gives their pieces in order with the space marker
replaced, their scores, 0.0 where there is none, and the padding up to the
size asked for. -/
theorem loadSentencepiece_recovers {es : List Entry} {buf : List UInt8} {vocabSize : Int}
    (hbuf : VocabFile es buf) (hsize : (es.length : Int) ≤ vocabSize) :
    loadSentencepiece unpack zero buf vocabSize = .ok
      ((es.map fun e => replaceMarker e.piece) ++
          (List.range' es.length (vocabSize.toNat - es.length)).map unused,
        (es.map fun e => (e.score.map unpack).getD zero) ++
          List.replicate (vocabSize.toNat - es.length) zero) := by
  refine bind_eq_ok.mpr ⟨_, topLoop_spells unpack zero hbuf rfl, ?_⟩
  dsimp only
  rw [List.nil_append, List.nil_append, List.length_map, List.length_map]
  by_cases hlt : (es.length : Int) < vocabSize
  · rw [if_pos hlt]
    have hpad : (vocabSize - es.length).toNat = vocabSize.toNat - es.length := by omega
    dsimp only
    rw [takeTo_of_length, takeTo_of_length, hpad]
    · rw [List.length_append, List.length_map, List.length_replicate]
      omega
    · rw [List.length_append, List.length_map, List.length_map, List.length_range']
      omega
  · rw [if_neg hlt]
    have hnone : vocabSize.toNat - es.length = 0 := by omega
    dsimp only
    rw [hnone, List.range'_zero, List.map_nil, List.append_nil, List.replicate_zero,
      List.append_nil, takeTo_of_length, takeTo_of_length]
    · rw [List.length_map]
      omega
    · rw [List.length_map]
      omega

/-- One piece, `▁a` with a score, in a file of a number field, an entry with
its score in front and a padded length, and a field of four bytes. -/
theorem loadSentencepiece_recovers_padded : loadSentencepiece id 0
    [0x18, 0x2A, 0x0A, 0x8B, 0x00, 0x15, 0, 0, 0x80, 0x3F, 0x0A, 4, 0xE2, 0x96, 0x81, 0x61, 0x25, 1,
      2, 3, 4] 2 = .ok
      ([[0x20, 0x61], unused 1], [0x3F800000, 0]) := by
  have hpiece : BytesField 1 [0xE2, 0x96, 0x81, 0x61]
      ([0x0A] ++ ([4] ++ [0xE2, 0x96, 0x81, 0x61])) :=
    .mk (.last (c := 0x0A) (by decide)) (.last (c := 4) (by decide))
  have hfields : EntryFields (some [0xE2, 0x96, 0x81, 0x61]) (some 0x3F800000)
      ([0x15] ++ (toLE 4 0x3F800000 ++ ([0x0A] ++ ([4] ++ [0xE2, 0x96, 0x81, 0x61]) ++ []))) :=
    .score (.last (c := 0x15) (by decide)) (.piece hpiece .done)
  have hentry : BytesField 1
      ([0x15] ++ (toLE 4 0x3F800000 ++ ([0x0A] ++ ([4] ++ [0xE2, 0x96, 0x81, 0x61]) ++ [])))
      ([0x0A] ++ ([0x8B, 0x00] ++ _)) :=
    .mk (.last (c := 0x0A) (by decide)) (.more (c := 0x8B) (by decide) (.last (c := 0) (by decide)))
  have hnumber : Field 3 0 ([0x18] ++ [0x2A]) :=
    .mk (.last (c := 0x18) (by decide)) (.varint (.last (c := 0x2A) (by decide)))
  have hfixed : Field 4 5 ([0x25] ++ [1, 2, 3, 4]) :=
    .mk (.last (c := 0x25) (by decide)) (.fixed32 rfl)
  have hfile : VocabFile [⟨[0xE2, 0x96, 0x81, 0x61], some 0x3F800000⟩]
      (([0x18] ++ [0x2A]) ++
        (([0x0A] ++ ([0x8B, 0x00] ++ _)) ++ (([0x25] ++ [1, 2, 3, 4]) ++ []))) :=
    .other (by decide) hnumber (.entry hfields hentry (.other (by decide) hfixed .done))
  exact loadSentencepiece_recovers id 0 hfile (by decide)

end Runs

end TinyLlm.Etq
