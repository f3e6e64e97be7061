/-
# `TinyLlm.Tok.RoundTrip` — text survives `tq_encode` and `tq_decode`

What a list of tokens says is the concatenation of `tokText`, a byte for a
byte piece and the piece itself for any other.  Splitting says the text run by
run, with one space before it, and a merge does not change what is said as
long as neither piece is a byte piece.  `PieceVocab.Inert` is what keeps BOS
and the byte pieces out of every merge.

The decoder undoes the space: the first token after BOS starts with it,
whatever it was merged into, and it is never itself a byte piece
(`Said.first`).
-/
import TinyLlm.Tok.Encode

namespace TinyLlm

/-! ## Vocabularies that round-trip -/

/-- A piece of the form `<0xHH>`, with hex digits of either case. -/
def IsBytePiece (p : List UInt8) : Prop := (byteOf p).isSome = true

/-- No byte of a C string is NUL. -/
def NulFree (text : List UInt8) : Prop := ∀ c ∈ text, c ≠ 0

instance (text : List UInt8) : Decidable (NulFree text) :=
  decidable_of_iff (text.all (· != 0) = true) (by simp [NulFree])

/-- The runs that `tq_encode` splits a text into. -/
def runs : Nat → List UInt8 → List (List UInt8)
  | k + 1, c :: text =>
      (c :: text).take (runLen c (text.length + 1))
        :: runs k ((c :: text).drop (runLen c (text.length + 1)))
  | _, _ => []

namespace PieceVocab
variable {S : Type} (V : PieceVocab S)

/-- The piece of token `i`. -/
def piece (i : Nat) : List UInt8 := V.pieces.getD i []

/-- BOS and the byte pieces. -/
def Special (bos : Nat) (p : List UInt8) : Prop := p = V.piece bos ∨ IsBytePiece p

/-- BOS and the byte pieces take no part in splitting or merging. -/
structure Inert (bos : Nat) : Prop where
  run : ∀ text, NulFree text → ∀ r ∈ runs text.length text, ¬ (V.Special bos r ∧ r ∈ V.pieces)
  join : ∀ a ∈ V.pieces, ∀ b ∈ V.pieces, a ++ b ∈ V.pieces → ¬ V.Special bos (a ++ b)
  part : ∀ a ∈ V.pieces, ∀ b ∈ V.pieces, a ++ b ∈ V.pieces → ¬ V.Special bos a ∧ ¬ V.Special bos b

/-- A vocabulary in which every text can be said and read back. -/
structure RoundTrips (bos : Nat) : Prop where
  space : ascii " " ∈ V.pieces
  bytes : ∀ b, byteName b ∈ V.pieces
  nonempty : ∀ p ∈ V.pieces, p ≠ []
  short : ∀ p ∈ V.pieces, p.length ≤ 63
  noSpaced : ∀ p, IsBytePiece p → ascii " " ++ p ∉ V.pieces
  bos_lt : bos < V.pieces.length
  bos_not_byte : ¬ IsBytePiece (V.piece bos)
  inert : V.Inert bos

end PieceVocab

/-! ## Byte pieces -/

theorem byteOf_byteName (b : UInt8) : byteOf (byteName b) = some b := by
  have h : ∀ n : Fin 256, byteOf (byteName (UInt8.ofNat n.val)) = some (UInt8.ofNat n.val) := by
    decide +kernel
  have hb := h ⟨b.toNat, b.toNat_lt⟩
  rwa [UInt8.ofNat_toNat] at hb

theorem isBytePiece_byteName (b : UInt8) : IsBytePiece (byteName b) := by
  rw [IsBytePiece, byteOf_byteName]
  rfl

/-- What a piece says. -/
def pieceText (p : List UInt8) : List UInt8 :=
  match byteOf p with
  | some b => [b]
  | none => p

theorem pieceText_of_not {p : List UInt8} (h : ¬ IsBytePiece p) : pieceText p = p := by
  unfold pieceText
  cases hb : byteOf p with
  | none => rfl
  | some b => exact absurd (congrArg Option.isSome hb) h

theorem pieceText_byteName (b : UInt8) : pieceText (byteName b) = [b] := by
  rw [pieceText, byteOf_byteName]

/-! ## A tokenizer over a vocabulary -/

/-- `T` reads the pieces of `V` and finds them. -/
structure TqTokenizer.For {S : Type} (T : TqTokenizer S) (V : PieceVocab S) (bos : Nat) : Prop where
  size : T.vocabSize = V.pieces.length
  bos : T.bos = bos
  piece : ∀ i < V.pieces.length, tqPiece T i = V.piece i
  lookup : ∀ s, (s ∈ V.pieces ∧ ∃ i < V.pieces.length, tqLookup T s = i ∧ V.piece i = s) ∨
    s ∉ V.pieces ∧ tqLookup T s = -1

theorem PieceVocab.tokenizer_for {S : Type} (V : PieceVocab S) (bos : Nat) (eos : Int)
    (bufBytes : Nat) : (V.tokenizer bos eos bufBytes).For V bos where
  size := rfl
  bos := rfl
  piece _ hi := (V.tokenizer_carries bos eos bufBytes).piece _ hi
  lookup s := V.tqLookup_spec bos eos bufBytes s

theorem ascii_space : ascii " " = [0x20] := by decide

section Tokens
variable {S : Type} {T : TqTokenizer S} {V : PieceVocab S} {bos : Nat}

theorem piece_mem {i : Nat} (h : i < V.pieces.length) : V.piece i ∈ V.pieces := by
  rw [PieceVocab.piece, List.getD_eq_getElem _ _ h]
  exact List.getElem_mem h

/-- A token of the vocabulary other than BOS. -/
def IsToken (V : PieceVocab S) (bos : Nat) (t : Int) : Prop :=
  ∃ i < V.pieces.length, t = (i : Int) ∧ i ≠ bos

/-- What a token says. -/
def tokText (T : TqTokenizer S) (t : Int) : List UInt8 := pieceText (tqPiece T t)

/-- The token of a piece that is not BOS's. -/
theorem lookup_token (hT : T.For V bos) {s : List UInt8} (hs : s ∈ V.pieces)
    (hbos : s ≠ V.piece bos) : IsToken V bos (tqLookup T s) ∧ tqPiece T (tqLookup T s) = s := by
  rcases hT.lookup s with ⟨-, i, hi, heq, hp⟩ | ⟨hno, -⟩
  · rw [heq, hT.piece i hi]
    refine ⟨⟨i, hi, rfl, ?_⟩, hp⟩
    rintro rfl
    exact hbos hp.symm
  · exact absurd hs hno

theorem lookup_nonneg (hT : T.For V bos) {s : List UInt8} (h : tqLookup T s ≥ 0) :
    s ∈ V.pieces := by
  rcases hT.lookup s with ⟨hs, -⟩ | ⟨-, heq⟩
  · exact hs
  · rw [heq] at h
    exact absurd h (by decide)

theorem IsToken.nonneg {t : Int} (h : IsToken V bos t) : t ≥ 0 := by
  obtain ⟨i, -, rfl, -⟩ := h
  exact Int.natCast_nonneg i

theorem IsToken.piece_mem (hT : T.For V bos) {t : Int} (h : IsToken V bos t) :
    tqPiece T t ∈ V.pieces := by
  obtain ⟨i, hi, rfl, -⟩ := h
  rw [hT.piece i hi]
  exact TinyLlm.piece_mem hi

/-! ## Splitting -/

theorem tqPush_ok {maxTokens : Nat} {tokens : List Int} (v : Int) (h : tokens.length < maxTokens) :
    tqPush maxTokens tokens v = .ok (tokens ++ [v]) :=
  if_neg (Nat.not_le_of_lt h)

/-- Tokens that say `text`, no more of them than it has bytes. -/
structure Spells (T : TqTokenizer S) (V : PieceVocab S) (bos : Nat) (tokens : List Int)
    (text : List UInt8) : Prop where
  valid : ∀ t ∈ tokens, IsToken V bos t
  flat : tokens.flatMap (tokText T) = text
  count : tokens.length ≤ text.length

theorem Spells.append {tokens tokens' : List Int} {text text' : List UInt8}
    (h : Spells T V bos tokens text) (h' : Spells T V bos tokens' text') :
    Spells T V bos (tokens ++ tokens') (text ++ text') where
  valid t ht := (List.mem_append.mp ht).elim (h.valid t) (h'.valid t)
  flat := by rw [List.flatMap_append, h.flat, h'.flat]
  count := by
    rw [List.length_append, List.length_append]
    exact Nat.add_le_add h.count h'.count

theorem Spells.nil : Spells T V bos [] [] := ⟨nofun, rfl, Nat.le_refl 0⟩

theorem Spells.singleton {t : Int} {text : List UInt8} (ht : IsToken V bos t)
    (htext : tokText T t = text) (hpos : 0 < text.length) : Spells T V bos [t] text where
  valid _ h := List.mem_singleton.mp h ▸ ht
  flat := by rw [List.flatMap_singleton, htext]
  count := hpos

/-- **Byte fallback** says the bytes. -/
theorem byteFallback_spells (hT : T.For V bos) (hV : V.RoundTrips bos) {maxTokens : Nat} :
    ∀ (run : List UInt8) {tokens : List Int}, tokens.length + run.length ≤ maxTokens →
      ∃ new, run.foldlM (fun tokens c =>
          let b := tqByteToken T c
          if b ≥ 0 then tqPush maxTokens tokens b else .ok tokens) tokens
        = .ok (tokens ++ new) ∧ Spells T V bos new run := by
  intro run
  induction run with
  | nil => intro tokens _; exact ⟨[], by rw [List.append_nil]; rfl, .nil⟩
  | cons c run ih =>
      intro tokens hlen
      rw [List.length_cons] at hlen
      have hbos : byteName c ≠ V.piece bos := fun heq =>
        hV.bos_not_byte (heq ▸ isBytePiece_byteName c)
      obtain ⟨htok, hpiece⟩ := lookup_token hT (hV.bytes c) hbos
      obtain ⟨new, hnew, hsp⟩ := @ih (tokens ++ [tqByteToken T c])
        (by rw [List.length_append, List.length_singleton]; omega)
      have htext : tokText T (tqByteToken T c) = [c] := by
        rw [tokText, tqByteToken, hpiece, pieceText_byteName]
      refine ⟨tqByteToken T c :: new, ?_, Spells.append (.singleton htok htext Nat.one_pos) hsp⟩
      rw [List.foldlM_cons]
      have hfound : tqByteToken T c ≥ 0 := htok.nonneg
      dsimp only
      rw [if_pos hfound, tqPush_ok _ (by omega)]
      refine hnew.trans ?_
      rw [List.append_assoc]
      rfl

/-- **A run** is said by its token or byte by byte. -/
theorem tqEncodeRun_spells (hT : T.For V bos) (hV : V.RoundTrips bos) {maxTokens : Nat}
    {run : List UInt8} (hrun : ¬ (V.Special bos run ∧ run ∈ V.pieces)) (hpos : 0 < run.length)
    {tokens : List Int} (hlen : tokens.length + run.length ≤ maxTokens) :
    ∃ new, tqEncodeRun T maxTokens tokens run = .ok (tokens ++ new) ∧ Spells T V bos new run := by
  unfold tqEncodeRun
  dsimp only
  split
  · next hid =>
      have hmem := lookup_nonneg hT hid
      have hplain : ¬ V.Special bos run := fun h => hrun ⟨h, hmem⟩
      obtain ⟨htok, hpiece⟩ := lookup_token hT hmem fun heq => hplain (.inl heq)
      refine ⟨[tqLookup T run], tqPush_ok _ (by omega), .singleton htok ?_ hpos⟩
      rw [tokText, hpiece, pieceText_of_not fun h => hplain (.inr h)]
  · exact byteFallback_spells hT hV run hlen

/-- **Splitting** says the text. -/
theorem tqSplit_spells (hT : T.For V bos) (hV : V.RoundTrips bos) {maxTokens : Nat} :
    ∀ (k : Nat) {text : List UInt8} {tokens : List Int}, text.length ≤ k →
      (∀ r ∈ runs k text, ¬ (V.Special bos r ∧ r ∈ V.pieces)) →
      tokens.length + text.length ≤ maxTokens →
      ∃ new, tqSplit T maxTokens k text tokens = .ok (tokens ++ new) ∧ Spells T V bos new text := by
  intro k
  induction k with
  | zero =>
      intro text tokens hk _ _
      obtain rfl := List.eq_nil_of_length_eq_zero (Nat.le_zero.mp hk)
      exact ⟨[], by rw [List.append_nil]; rfl, .nil⟩
  | succ k ih =>
      intro text tokens hk hruns hlen
      cases text with
      | nil => exact ⟨[], by rw [List.append_nil]; rfl, .nil⟩
      | cons c text =>
          have hpos := runLen_pos c (text.length + 1)
          have hle := runLen_le c (Nat.succ_pos text.length)
          rw [List.length_cons] at hk hlen
          rw [runs] at hruns
          rw [tqSplit]
          generalize hr : runLen c (text.length + 1) = len at hpos hle hruns ⊢
          have htake : ((c :: text).take len).length = len := by
            rw [List.length_take, List.length_cons]
            omega
          have hdrop : ((c :: text).drop len).length = text.length + 1 - len := List.length_drop
          have hroom : tokens.length + ((c :: text).take len).length ≤ maxTokens := by omega
          obtain ⟨new, hnew, hsp⟩ := tqEncodeRun_spells hT hV (hruns _ List.mem_cons_self)
            (by omega) hroom
          have hcount := hsp.count
          obtain ⟨new', hnew', hsp'⟩ := @ih ((c :: text).drop len) (tokens ++ new) (by omega)
            (fun r h => hruns r (List.mem_cons_of_mem _ h))
            (by rw [List.length_append]; omega)
          refine ⟨new ++ new', ?_, ?_⟩
          · rw [hnew]
            refine hnew'.trans ?_
            rw [List.append_assoc]
          · have hboth := hsp.append hsp'
            rwa [List.take_append_drop] at hboth

/-! ## Merging -/

/-- A list splits around a pair. -/
theorem split_pair {tokens : List Int} {k : Nat} (h : k + 1 < tokens.length) :
    tokens = tokens.take k ++ tokens.getD k 0 :: tokens.getD (k + 1) 0 :: tokens.drop (k + 2) := by
  have hk : k < tokens.length := Nat.lt_of_succ_lt h
  rw [List.getD_eq_getElem _ _ hk, List.getD_eq_getElem _ _ h, ← List.drop_eq_getElem_cons h,
    ← List.drop_eq_getElem_cons hk, List.take_append_drop]

/-- The tokens after BOS: they say `text`, and the first of them starts with the
space that was put before it. -/
structure Said (T : TqTokenizer S) (V : PieceVocab S) (bos : Nat) (tokens : List Int)
    (text : List UInt8) : Prop where
  valid : ∀ t ∈ tokens, IsToken V bos t
  flat : tokens.flatMap (tokText T) = text
  first : ∀ t, tokens.head? = some t →
    ¬ IsBytePiece (tqPiece T t) ∧ (tqPiece T t).head? = some 0x20

/-- A merge of two plain pieces says what they said. -/
theorem Said.mergeAt (hT : T.For V bos) (hV : V.RoundTrips bos) {tokens : List Int}
    {text : List UInt8} (h : Said T V bos tokens text) {k : Nat} (hk : k + 1 < tokens.length)
    {id : Int}
    (hid : id = tqLookup T (tqPiece T (tokens.getD k 0) ++ tqPiece T (tokens.getD (k + 1) 0)))
    (hpos : 0 ≤ id) : Said T V bos (mergeAt tokens k id) text := by
  have hsplit := split_pair hk
  have hmem : ∀ j, j < tokens.length → IsToken V bos (tokens.getD j 0) := fun j hj => by
    rw [List.getD_eq_getElem _ _ hj]
    exact h.valid _ (List.getElem_mem hj)
  have ha := (hmem k (Nat.lt_of_succ_lt hk)).piece_mem hT
  have hb := (hmem (k + 1) hk).piece_mem hT
  generalize hx : tokens.getD k 0 = x at hsplit hid ha
  generalize hy : tokens.getD (k + 1) 0 = y at hsplit hid hb
  have hjoin : tqPiece T x ++ tqPiece T y ∈ V.pieces := lookup_nonneg hT (hid ▸ hpos)
  have hplain := hV.inert.join _ ha _ hb hjoin
  obtain ⟨hxp, hyp⟩ := hV.inert.part _ ha _ hb hjoin
  obtain ⟨htok, hpiece⟩ := lookup_token hT hjoin fun heq => hplain (.inl heq)
  rw [← hid] at htok hpiece
  have hnot : ¬ IsBytePiece (tqPiece T id) := by
    rw [hpiece]
    exact fun hbyte => hplain (.inr hbyte)
  have htext : tokText T id = tokText T x ++ tokText T y := by
    rw [tokText, tokText, tokText, pieceText_of_not hnot,
      pieceText_of_not fun hbyte => hxp (.inr hbyte),
      pieceText_of_not fun hbyte => hyp (.inr hbyte), hpiece]
  refine ⟨fun t ht => ?_, ?_, fun t ht => ?_⟩
  · rcases List.mem_append.mp ht with ht | ht
    · exact h.valid t (List.mem_of_mem_take ht)
    · rcases List.mem_cons.mp ht with rfl | ht
      · exact htok
      · exact h.valid t (List.mem_of_mem_drop ht)
  · rw [← h.flat]
    conv => rhs; rw [hsplit]
    rw [TinyLlm.mergeAt, List.flatMap_append, List.flatMap_append, List.flatMap_cons,
      List.flatMap_cons, List.flatMap_cons, htext, List.append_assoc]
  · cases k with
    | zero =>
        -- the first token was merged, and starts as its first part did
        have hhead : tokens.head? = some x := by rw [hsplit]; rfl
        cases ht
        refine ⟨hnot, ?_⟩
        rw [hpiece, List.head?_append, (h.first x hhead).2]
        rfl
    | succ k =>
        refine h.first t ?_
        rw [hsplit]
        cases tokens with
        | nil => exact absurd hk (Nat.not_lt_zero _)
        | cons t' tokens => exact ht

/-- **Merging** leaves BOS and what is said. -/
theorem tqMerge_said (gt : S → S → Bool) (hT : T.For V bos) (hV : V.RoundTrips bos) :
    ∀ (n : Nat) {tokens : List Int} {text : List UInt8}, Said T V bos tokens text →
      ∃ tokens', tqMerge gt T n ((bos : Int) :: tokens) = (bos : Int) :: tokens' ∧
        Said T V bos tokens' text := by
  intro n
  induction n with
  | zero => intro tokens text h; exact ⟨tokens, rfl, h⟩
  | succ n ih =>
      intro tokens text h
      rw [tqMerge]
      cases hbest : tqBestMerge gt T ((bos : Int) :: tokens) with
      | none => exact ⟨tokens, rfl, h⟩
      | some best =>
          obtain ⟨s, id, k⟩ := best
          obtain ⟨hk, hpos, hid⟩ := tqBestMerge_some gt T hbest
          cases k with
          | zero =>
              -- the pair would start with BOS
              rw [List.length_cons] at hk
              cases tokens with
              | nil => exact absurd hk (by decide)
              | cons t tokens =>
                  have hbosp : tqPiece T (bos : Int) = V.piece bos := hT.piece bos hV.bos_lt
                  have htp := (h.valid t List.mem_cons_self).piece_mem hT
                  have hjoin : tqPiece T (bos : Int) ++ tqPiece T t ∈ V.pieces :=
                    lookup_nonneg hT (hid ▸ hpos)
                  rw [hbosp] at hjoin
                  exact absurd (.inl rfl) (hV.inert.part _ (piece_mem hV.bos_lt) _ htp hjoin).1
          | succ k =>
              rw [List.length_cons] at hk
              exact ih (h.mergeAt hT hV (Nat.lt_of_succ_lt_succ hk) hid hpos)

/-! ## Decoding -/

/-- A token that does not follow BOS is what it says. -/
theorem tqDecode_text (hT : T.For V bos) (hV : V.RoundTrips bos) {prev t : Int}
    (hprev : prev ≠ bos) (ht : IsToken V bos t) : tqDecode T prev t 64 = .ok (tokText T t) := by
  have hshort := hV.short _ (ht.piece_mem hT)
  obtain ⟨i, hi, rfl, -⟩ := ht
  have hsize := hT.size
  have hbos := hT.bos
  unfold tqDecode
  rw [if_neg (by omega)]
  dsimp only
  rw [if_neg (fun h => hprev (h.1.trans hbos)), if_neg (by omega), tokText, pieceText]
  cases byteOf (tqPiece T (i : Int)) <;> rfl

theorem tqDecodeAll_text (hT : T.For V bos) (hV : V.RoundTrips bos) : ∀ (tokens : List Int)
    {prev : Int}, prev ≠ bos → (∀ t ∈ tokens, IsToken V bos t) →
    tqDecodeAll T 64 prev tokens = .ok (tokens.flatMap (tokText T)) := by
  intro tokens
  induction tokens with
  | nil => intro prev _ _; rfl
  | cons t tokens ih =>
      intro prev hprev hvalid
      have ht := hvalid t List.mem_cons_self
      have hne : t ≠ bos := by
        obtain ⟨i, -, rfl, hi⟩ := ht
        exact fun h => hi (Int.ofNat_inj.mp h)
      rw [tqDecodeAll, tqDecode_text hT hV hprev ht,
        ih hne fun t' ht' => hvalid t' (List.mem_cons_of_mem t ht')]
      rfl

/-- The first token after BOS loses its space. -/
theorem tqDecode_first (hT : T.For V bos) (hV : V.RoundTrips bos) {t : Int}
    (ht : IsToken V bos t) {text : List UInt8} (hp : tqPiece T t = 0x20 :: text) :
    tqDecode T bos t 64 = .ok text := by
  have hmem := ht.piece_mem hT
  have hshort := hV.short _ hmem
  rw [hp, List.length_cons] at hshort
  have hnot : byteOf text = none := by
    cases hb : byteOf text with
    | none => rfl
    | some b =>
        have hbyte : IsBytePiece text := congrArg Option.isSome hb
        have hspaced : ascii " " ++ text ∈ V.pieces := by
          rw [hp] at hmem
          rwa [ascii_space]
        exact absurd hspaced (hV.noSpaced text hbyte)
  obtain ⟨i, hi, rfl, -⟩ := ht
  have hsize := hT.size
  have hbos := hT.bos
  unfold tqDecode
  rw [if_neg (by omega)]
  dsimp only
  rw [hp, if_pos ⟨hbos.symm, Nat.succ_pos _, rfl⟩, List.drop_one, List.tail_cons, hnot]
  dsimp only
  rw [if_neg (by omega)]

/-- **Decoding** what was said after BOS drops the space before it. -/
theorem Said.decode (hT : T.For V bos) (hV : V.RoundTrips bos) {tokens : List Int}
    {text : List UInt8} (h : Said T V bos tokens (0x20 :: text)) :
    tqDecodeAll T 64 bos tokens = .ok text := by
  cases tokens with
  | nil => cases h.flat
  | cons t tokens =>
      obtain ⟨hnot, hhead⟩ := h.first t rfl
      have ht := h.valid t List.mem_cons_self
      cases hp : tqPiece T t with
      | nil => rw [hp] at hhead; cases hhead
      | cons c rest =>
          rw [hp] at hhead
          cases hhead
          have hflat := h.flat
          have hne : t ≠ bos := by
            obtain ⟨i, -, rfl, hi⟩ := ht
            exact fun h => hi (Int.ofNat_inj.mp h)
          rw [List.flatMap_cons, tokText, pieceText_of_not hnot, hp] at hflat
          have hrest : rest ++ tokens.flatMap (tokText T) = text := (List.cons.inj hflat).2
          rw [tqDecodeAll, tqDecode_first hT hV ht hp,
            tqDecodeAll_text hT hV tokens hne fun t' ht' => h.valid t' (List.mem_cons_of_mem t ht')]
          exact congrArg Except.ok hrest

theorem pieceText_ne_nil {p : List UInt8} (h : p ≠ []) : pieceText p ≠ [] := by
  unfold pieceText
  split
  · exact List.cons_ne_nil _ _
  · exact h

/-- Every token says a byte or more. -/
theorem Said.length_le (hT : T.For V bos) (hV : V.RoundTrips bos) {tokens : List Int}
    {text : List UInt8} (h : Said T V bos tokens text) : tokens.length ≤ text.length := by
  have hgo : ∀ tokens : List Int, (∀ t ∈ tokens, IsToken V bos t) →
      tokens.length ≤ (tokens.flatMap (tokText T)).length := by
    intro tokens
    induction tokens with
    | nil => exact fun _ => Nat.le_refl _
    | cons t tokens ih =>
        intro hvalid
        have hne := pieceText_ne_nil (hV.nonempty _ ((hvalid t List.mem_cons_self).piece_mem hT))
        have hpos : 0 < (tokText T t).length := List.length_pos_iff.mpr hne
        have hrest := ih fun t' ht' => hvalid t' (List.mem_cons_of_mem t ht')
        rw [List.flatMap_cons, List.length_append, List.length_cons]
        omega
  rw [← h.flat]
  exact hgo tokens h.valid

end Tokens

section Encode
variable {S : Type} (gt : S → S → Bool) {T : TqTokenizer S} {V : PieceVocab S} {bos : Nat}
  {maxTokens : Nat}

theorem pushBos_ok (hT : T.For V bos) (hmax : 0 < maxTokens) :
    tqPush maxTokens [] T.bos = .ok [(bos : Int)] := by
  rw [hT.bos]
  exact tqPush_ok _ hmax

/-- The empty text is BOS alone. -/
theorem tqEncode_nil (hT : T.For V bos) (hmax : 0 < maxTokens) :
    tqEncode gt T [] true false maxTokens = .ok [(bos : Int)] := by
  unfold tqEncode
  rw [if_pos rfl, pushBos_ok hT hmax]
  rfl

/-- **Encoding** says the text after BOS, with a space before it. -/
theorem tqEncode_said (hT : T.For V bos) (hV : V.RoundTrips bos) {text : List UInt8}
    (htext : text ≠ []) (hnul : NulFree text) (hmax : text.length + 2 ≤ maxTokens) :
    ∃ tokens, tqEncode gt T text true false maxTokens = .ok ((bos : Int) :: tokens) ∧
      Said T V bos tokens (0x20 :: text) := by
  have hspace : ¬ (V.Special bos [0x20] ∧ [0x20] ∈ V.pieces) :=
    hV.inert.run [0x20] (by decide) [0x20] (by decide)
  have hmem : [0x20] ∈ V.pieces := ascii_space ▸ hV.space
  have hplain : ¬ V.Special bos [0x20] := fun h => hspace ⟨h, hmem⟩
  obtain ⟨htok, hpiece⟩ := lookup_token hT hmem fun heq => hplain (.inl heq)
  have hroom : [(bos : Int), tqLookup T [0x20]].length + text.length ≤ maxTokens := by
    show 2 + text.length ≤ maxTokens
    omega
  obtain ⟨new, hnew, hsp⟩ := tqSplit_spells hT hV text.length (Nat.le_refl _)
    (hV.inert.run _ hnul) hroom
  have hfirst : Said T V bos (tqLookup T [0x20] :: new) (0x20 :: text) := by
    refine ⟨fun t ht => ?_, ?_, fun t ht => ?_⟩
    · rcases List.mem_cons.mp ht with rfl | ht
      · exact htok
      · exact hsp.valid t ht
    · rw [List.flatMap_cons, hsp.flat, tokText, hpiece, pieceText_of_not fun h => hplain (.inr h)]
      rfl
    · cases ht
      rw [hpiece]
      exact ⟨fun h => hplain (.inr h), rfl⟩
  obtain ⟨tokens, hmerge, hsaid⟩ := tqMerge_said gt hT hV
    ((bos : Int) :: tqLookup T [0x20] :: new).length hfirst
  refine ⟨tokens, ?_, hsaid⟩
  unfold tqEncode
  rw [if_pos rfl, pushBos_ok hT (by omega)]
  have hsecond : tqPush maxTokens [(bos : Int)] (tqLookup T [0x20])
      = .ok [(bos : Int), tqLookup T [0x20]] :=
    tqPush_ok _ (by show 1 < maxTokens; omega)
  dsimp only [bind, Except.bind]
  rw [ascii_space, if_pos ⟨htext, htok.nonneg⟩, hsecond]
  dsimp only
  rw [hnew]
  exact congrArg Except.ok hmerge

end Encode

/-- **Tokenizer round trip.**  Over an exported vocabulary in which BOS and the
byte pieces are inert, every text is encoded, and the outputs of decoding the
tokens after BOS are the text. -/
theorem tqEncode_tqDecode {S : Type} (gt : S → S → Bool) (V : PieceVocab S) (bos : Nat) (eos : Int)
    (hV : V.RoundTrips bos) (text : List UInt8) (hnul : NulFree text) (maxTokens : Nat)
    (hmax : text.length + 2 ≤ maxTokens) :
    ∃ tokens, tqEncode gt (V.tokenizer bos eos 64) text true false maxTokens
        = .ok ((bos : Int) :: tokens) ∧
      tqDecodeAll (V.tokenizer bos eos 64) 64 bos tokens = .ok text := by
  have hT := V.tokenizer_for bos eos 64
  cases text with
  | nil => exact ⟨[], tqEncode_nil gt hT (Nat.lt_of_lt_of_le (by decide) hmax), rfl⟩
  | cons c text =>
      obtain ⟨tokens, henc, hsaid⟩ := tqEncode_said gt hT hV (List.cons_ne_nil c text) hnul hmax
      exact ⟨tokens, henc, hsaid.decode hT hV⟩

/-! ## A vocabulary -/

/-- BOS, the space and the byte pieces. -/
def bytePieces : List (List UInt8) :=
  ascii "<s>" :: ascii " " :: (List.range 256).map fun n => byteName (UInt8.ofNat n)

theorem mem_bytePieces {p : List UInt8} : p ∈ bytePieces ↔
    p = ascii "<s>" ∨ p = ascii " " ∨ ∃ b, p = byteName b := by
  unfold bytePieces
  rw [List.mem_cons, List.mem_cons, List.mem_map]
  refine or_congr_right (or_congr_right ⟨fun ⟨n, _, h⟩ => ⟨_, h.symm⟩, fun ⟨b, h⟩ => ?_⟩)
  exact ⟨b.toNat, List.mem_range.mpr b.toNat_lt, by rw [h, UInt8.ofNat_toNat]⟩

def byteVocab : PieceVocab Unit where
  pieces := bytePieces
  scores _ := ()
  count_lt := by decide +kernel
  blob_lt := by decide +kernel

/-- A run starts with the byte that says how long it is. -/
theorem run_shape : ∀ {k : Nat} {text r : List UInt8}, r ∈ runs k text →
    ∃ c rest left, r = (c :: rest).take (runLen c left)
  | 0, _, _, h => by cases h
  | _ + 1, [], _, h => by cases h
  | k + 1, c :: text, r, h => by
      rw [runs] at h
      rcases List.mem_cons.mp h with rfl | h
      · exact ⟨c, text, text.length + 1, rfl⟩
      · exact run_shape h

/-- A run that starts with `<` is no longer than that. -/
theorem run_lt {k : Nat} {text rest : List UInt8} {c : UInt8}
    (h : 0x3C :: c :: rest ∈ runs k text) :
    False := by
  obtain ⟨c', rest', left, heq⟩ := run_shape h
  have hpos := runLen_pos c' left
  have hcons : (c' :: rest').take (runLen c' left) = c' :: rest'.take (runLen c' left - 1) := by
    obtain ⟨n, hn⟩ : ∃ n, runLen c' left = n + 1 := ⟨runLen c' left - 1, by omega⟩
    rw [hn, List.take_succ_cons, Nat.add_sub_cancel]
  rw [hcons] at heq
  obtain ⟨rfl, htail⟩ := List.cons.inj heq
  have hone : runLen 0x3C left = 1 := by
    unfold runLen
    split <;> rfl
  rw [hone] at htail
  cases htail

/-- The three shapes of its pieces. -/
theorem byteVocab_shape {p : List UInt8} (h : p ∈ byteVocab.pieces) :
    p = [0x3C, 0x73, 0x3E] ∨ p = [0x20] ∨ ∃ x y, p = [0x3C, 0x30, 0x78, x, y, 0x3E] := by
  rcases mem_bytePieces.mp h with rfl | rfl | ⟨b, rfl⟩
  · exact .inl (by decide)
  · exact .inr (.inl (by decide))
  · have hopen : ascii "<0x" = [0x3C, 0x30, 0x78] := by decide
    have hclose : ascii ">" = [0x3E] := by decide
    refine .inr (.inr ⟨hexDigit (b.toNat / 16), hexDigit (b.toNat % 16), ?_⟩)
    rw [byteName, hopen, hclose]
    rfl

/-- A special piece is not the space. -/
theorem byteVocab_special {p : List UInt8} (h : byteVocab.Special 0 p) (hp : p ∈ byteVocab.pieces) :
    p = [0x3C, 0x73, 0x3E] ∨ ∃ x y, p = [0x3C, 0x30, 0x78, x, y, 0x3E] := by
  rcases byteVocab_shape hp with rfl | rfl | hb
  · exact .inl rfl
  · rcases h with h | h
    · exact absurd h (by decide)
    · exact absurd h (by unfold IsBytePiece; decide)
  · exact .inr hb

/-- No piece of it is made of two. -/
theorem byteVocab_join {a b : List UInt8} (ha : a ∈ byteVocab.pieces) (hb : b ∈ byteVocab.pieces) :
    a ++ b ∉ byteVocab.pieces := by
  intro hab
  have hshape := byteVocab_shape hab
  rcases byteVocab_shape ha with rfl | rfl | ⟨x, y, rfl⟩ <;>
    rcases byteVocab_shape hb with rfl | rfl | ⟨x', y', rfl⟩ <;> simp at hshape

theorem byteVocab_inert : byteVocab.Inert 0 where
  run text _ r hr hspecial := by
    rcases byteVocab_special hspecial.1 hspecial.2 with rfl | ⟨x, y, rfl⟩
    · exact run_lt hr
    · exact run_lt hr
  join _ ha _ hb hab := absurd hab (byteVocab_join ha hb)
  part _ ha _ hb hab := absurd hab (byteVocab_join ha hb)

theorem byteVocab_roundTrips : byteVocab.RoundTrips 0 where
  space := mem_bytePieces.mpr (.inr (.inl rfl))
  bytes b := mem_bytePieces.mpr (.inr (.inr ⟨b, rfl⟩))
  nonempty p hp := by
    rcases byteVocab_shape hp with rfl | rfl | ⟨x, y, rfl⟩ <;> exact List.cons_ne_nil _ _
  short p hp := by
    rcases byteVocab_shape hp with rfl | rfl | ⟨x, y, rfl⟩ <;> exact Nat.le_of_ble_eq_true rfl
  noSpaced p hbyte hp := by
    rw [ascii_space] at hp
    rcases byteVocab_shape hp with h | h | ⟨x, y, h⟩
    · cases h
    · cases h
      exact absurd hbyte (by unfold IsBytePiece; decide)
    · cases h
  bos_lt := by decide +kernel
  bos_not_byte := by unfold IsBytePiece; decide
  inert := byteVocab_inert

/-- Each of its tokens but BOS says one byte. -/
theorem byteVocab_tokText {T : TqTokenizer Unit} (hT : T.For byteVocab 0) {t : Int}
    (h : IsToken byteVocab 0 t) : (tokText T t).length = 1 := by
  obtain ⟨i, hi, rfl, hne⟩ := h
  obtain ⟨k, rfl⟩ : ∃ k, i = k + 1 := ⟨i - 1, by omega⟩
  have hmem : byteVocab.piece (k + 1) ∈
      ascii " " :: (List.range 256).map fun n => byteName (UInt8.ofNat n) := by
    have hcons : byteVocab.pieces = ascii "<s>" :: ascii " " ::
        (List.range 256).map fun n => byteName (UInt8.ofNat n) := rfl
    rw [PieceVocab.piece, hcons, List.getD_cons_succ]
    rw [hcons, List.length_cons] at hi
    generalize ascii " " :: (List.range 256).map (fun n => byteName (UInt8.ofNat n)) = rest at hi ⊢
    rw [List.getD_eq_getElem _ _ (Nat.lt_of_succ_lt_succ hi)]
    exact List.getElem_mem _
  rw [tokText, hT.piece _ hi]
  rcases List.mem_cons.mp hmem with hspace | hbyte
  · rw [hspace, pieceText_of_not (by unfold IsBytePiece; decide)]
    decide
  · obtain ⟨n, -, hn⟩ := List.mem_map.mp hbyte
    rw [← hn, pieceText_byteName]
    rfl

/-- So a text has as many tokens as bytes, the space before it included. -/
theorem byteVocab_length {T : TqTokenizer Unit} (hT : T.For byteVocab 0) : ∀ {tokens : List Int},
    (∀ t ∈ tokens, IsToken byteVocab 0 t) →
    (tokens.flatMap (tokText T)).length = tokens.length
  | [], _ => rfl
  | t :: tokens, h => by
      have ih := byteVocab_length hT fun t' ht' => h t' (List.mem_cons_of_mem t ht')
      rw [List.flatMap_cons, List.length_append, byteVocab_tokText hT (h t List.mem_cons_self), ih,
        List.length_cons, Nat.add_comm]

/-- The round trip of `a<é` with its last byte cut off. -/
theorem tqEncode_tqDecode_bytes :
    ∃ tokens, tqEncode (fun _ _ => false) (byteVocab.tokenizer 0 2 64)
      [0x61, 0x3C, 0xC3] true false 5
        = .ok (0 :: tokens) ∧
      tqDecodeAll (byteVocab.tokenizer 0 2 64) 64 0 tokens = .ok [0x61, 0x3C, 0xC3] :=
  tqEncode_tqDecode (fun _ _ => false) byteVocab 0 2 byteVocab_roundTrips [0x61, 0x3C, 0xC3]
    (by decide) 5 (by decide)

end TinyLlm
