/-
# `TinyLlm.Tok.Encode` — `tq_encode` and `tq_decode`

Text is a byte string without the terminating NUL.  Encoding splits it into
runs that are as long as their first byte says a UTF-8 code point is, falls
back to one token a byte where a run is no piece, and then joins the adjacent
pair of the best score until no pair joins.

Both loops shorten something: a run is never empty and a merge removes one
token.  So the length of the text and the number of tokens are enough fuel
(`tqSplit_fuel`, `tqMerge_fuel`).
-/
import TinyLlm.Lib.Loop
import TinyLlm.Model.Format
import TinyLlm.Tok.Piece

namespace TinyLlm

open Loop

section Encode
variable {S : Type} (gt : S → S → Bool) (T : TqTokenizer S)

/-! ## Byte fallback -/

/-- `hex[n]`. -/
def hexDigit (n : Nat) : UInt8 := (ascii "0123456789ABCDEF").getD n 0

/-- The spelling `<0xNN>` of a byte. -/
def byteName (b : UInt8) : List UInt8 :=
  ascii "<0x" ++ [hexDigit (b.toNat / 16), hexDigit (b.toNat % 16)] ++ ascii ">"

def tqByteToken (b : UInt8) : Int := tqLookup T (byteName b)

/-! ## Splitting -/

/-- `TQ_PUSH`. -/
def tqPush (maxTokens : Nat) (tokens : List Int) (v : Int) : Except TqStatus (List Int) :=
  if tokens.length ≥ maxTokens then .error .errNomem else .ok (tokens ++ [v])

/-- How long a code point is that starts with `c`. -/
def codepointLen (c : UInt8) : Nat :=
  if c &&& 0xE0 = 0xC0 then 2
  else if c &&& 0xF0 = 0xE0 then 3
  else if c &&& 0xF8 = 0xF0 then 4
  else 1

/-- The length of the run at `c`, with `left` bytes of text left. -/
def runLen (c : UInt8) (left : Nat) : Nat :=
  if codepointLen c > left then 1 else codepointLen c

/-- The token of a run, or one token for each of its bytes. -/
def tqEncodeRun (maxTokens : Nat) (tokens : List Int) (run : List UInt8) :
    Except TqStatus (List Int) :=
  let id := tqLookup T run
  if id ≥ 0 then tqPush maxTokens tokens id
  else run.foldlM (fun tokens c =>
    let b := tqByteToken T c
    if b ≥ 0 then tqPush maxTokens tokens b else .ok tokens) tokens

/-- `while (i < textlen)`, on the text that is left. -/
def tqSplit (maxTokens : Nat) : Nat → List UInt8 → List Int → Except TqStatus (List Int)
  | k + 1, c :: text, tokens => do
      let len := runLen c (text.length + 1)
      let tokens ← tqEncodeRun T maxTokens tokens ((c :: text).take len)
      tqSplit maxTokens k ((c :: text).drop len) tokens
  | _, _, tokens => .ok tokens

/-! ## Merging -/

/-- The round of the inner loop that looks at the pair at `k`. -/
def tqBestStep (tokens : List Int) (k : Nat) (best : Option (S × Int × Nat)) :
    Option (S × Int × Nat) :=
  let a := tqPiece T (tokens.getD k 0)
  let b := tqPiece T (tokens.getD (k + 1) 0)
  if a.length + b.length > T.bufBytes then best
  else
    let id := tqLookup T (a ++ b)
    if id ≥ 0 ∧ best.all (fun best => gt (T.scores id.toNat) best.1) = true then
      some (T.scores id.toNat, id, k)
    else best

/-- `best_score`, `best_id` and `best_at` after the inner loop. -/
def tqBestMerge (tokens : List Int) : Option (S × Int × Nat) :=
  forUp (tokens.length - 1) (tqBestStep gt T tokens) none

/-- The tokens with the pair at `k` replaced by `id`. -/
def mergeAt (tokens : List Int) (k : Nat) (id : Int) : List Int :=
  tokens.take k ++ id :: tokens.drop (k + 2)

/-- `for (;;)`, until no pair merges. -/
def tqMerge : Nat → List Int → List Int
  | 0, tokens => tokens
  | n + 1, tokens =>
      match tqBestMerge gt T tokens with
      | none => tokens
      | some (_, id, k) => tqMerge n (mergeAt tokens k id)

def tqEncode (text : List UInt8) (addBos addEos : Bool) (maxTokens : Nat) :
    Except TqStatus (List Int) := do
  let tokens ← if addBos then tqPush maxTokens [] T.bos else .ok []
  let d := tqLookup T (ascii " ")
  let tokens ← if text ≠ [] ∧ d ≥ 0 then tqPush maxTokens tokens d else .ok tokens
  let tokens ← tqSplit T maxTokens text.length text tokens
  let tokens := tqMerge gt T tokens.length tokens
  if addEos then tqPush maxTokens tokens T.eos else .ok tokens

/-! ## Decoding -/

def tqHexval (c : UInt8) : Int :=
  if c ≥ 0x30 ∧ c ≤ 0x39 then c.toNat - 0x30
  else if c ≥ 0x61 ∧ c ≤ 0x66 then c.toNat - 0x61 + 10
  else if c ≥ 0x41 ∧ c ≤ 0x46 then c.toNat - 0x41 + 10
  else -1

/-- The byte that a piece `<0xHH>` stands for, with hex digits of either case. -/
def byteOf (p : List UInt8) : Option UInt8 :=
  if p.length = 6 ∧ p.getD 0 0 = 0x3C ∧ p.getD 1 0 = 0x30 ∧ p.getD 2 0 = 0x78 ∧
    p.getD 5 0 = 0x3E then
    let hi := tqHexval (p.getD 3 0)
    let lo := tqHexval (p.getD 4 0)
    if hi ≥ 0 ∧ lo ≥ 0 then some (UInt8.ofNat (hi.toNat * 16 + lo.toNat)) else none
  else none

/-- The bytes written to `out`, without the terminating NUL. -/
def tqDecode (prev token : Int) (outBytes : Nat) : Except TqStatus (List UInt8) :=
  if token < 0 ∨ token ≥ T.vocabSize ∨ outBytes < 2 then .error .errRange
  else
    let p := tqPiece T token
    let p := if prev = T.bos ∧ p.length > 0 ∧ p.getD 0 0 = 0x20 then p.drop 1 else p
    match byteOf p with
    | some b => .ok [b]
    | none => .ok (if p.length + 1 > outBytes then p.take (outBytes - 1) else p)

/-- The outputs over a list of tokens, each with its predecessor, one after the other. -/
def tqDecodeAll (outBytes : Nat) : Int → List Int → Except TqStatus (List UInt8)
  | _, [] => .ok []
  | prev, token :: tokens => do
      let out ← tqDecode T prev token outBytes
      let rest ← tqDecodeAll outBytes token tokens
      .ok (out ++ rest)

end Encode

/-! ## Fuel -/

section Fuel
variable {S : Type} (gt : S → S → Bool) (T : TqTokenizer S)

theorem codepointLen_pos (c : UInt8) : 0 < codepointLen c := by
  unfold codepointLen
  split
  · decide
  · split
    · decide
    · split <;> decide

theorem runLen_pos (c : UInt8) (left : Nat) : 0 < runLen c left := by
  unfold runLen
  split
  · decide
  · exact codepointLen_pos c

theorem runLen_le (c : UInt8) {left : Nat} (h : 0 < left) : runLen c left ≤ left := by
  unfold runLen
  split <;> omega

/-- More fuel than there is text changes nothing. -/
theorem tqSplit_fuel (maxTokens : Nat) : ∀ {n m : Nat} {text : List UInt8} {tokens : List Int},
    text.length ≤ n → n ≤ m → tqSplit T maxTokens n text tokens =
      tqSplit T maxTokens m text tokens := by
  intro n
  induction n with
  | zero =>
      intro m text tokens hn _
      obtain rfl := List.eq_nil_of_length_eq_zero (Nat.le_zero.mp hn)
      cases m <;> rfl
  | succ n ih =>
      intro m text tokens hn hm
      obtain ⟨m, rfl⟩ : ∃ k, m = k + 1 := ⟨m - 1, by omega⟩
      cases text with
      | nil => rfl
      | cons c text =>
          have hpos := runLen_pos c (text.length + 1)
          have hrest : ((c :: text).drop (runLen c (text.length + 1))).length ≤ n := by
            rw [List.length_drop]
            omega
          rw [tqSplit, tqSplit]
          cases tqEncodeRun T maxTokens tokens ((c :: text).take (runLen c (text.length + 1))) with
          | error e => rfl
          | ok tokens => exact ih hrest (by omega)

/-- What the inner loop has found is a pair that joins to a piece. -/
theorem tqBestMerge_some {tokens : List Int} {s : S} {id : Int} {k : Nat}
    (h : tqBestMerge gt T tokens = some (s, id, k)) :
    k + 1 < tokens.length ∧ 0 ≤ id ∧
      id = tqLookup T (tqPiece T (tokens.getD k 0) ++ tqPiece T (tokens.getD (k + 1) 0)) := by
  have hinv : ∀ s id k, tqBestMerge gt T tokens = some (s, id, k) →
      k < tokens.length - 1 ∧ 0 ≤ id ∧
        id = tqLookup T (tqPiece T (tokens.getD k 0) ++ tqPiece T (tokens.getD (k + 1) 0)) := by
    refine forUp_inv (I := fun i best => ∀ s id k, best = some (s, id, k) → k < i ∧ 0 ≤ id ∧
      id = tqLookup T (tqPiece T (tokens.getD k 0) ++ tqPiece T (tokens.getD (k + 1) 0)))
      (fun _ _ _ h => by cases h) fun i _ best ih s id k h => ?_
    unfold tqBestStep at h
    dsimp only at h
    have hold : best = some (s, id, k) → k < i + 1 ∧ 0 ≤ id ∧
        id = tqLookup T (tqPiece T (tokens.getD k 0) ++
          tqPiece T (tokens.getD (k + 1) 0)) := fun hb =>
      ⟨Nat.lt_succ_of_lt (ih s id k hb).1, (ih s id k hb).2⟩
    split at h
    · exact hold h
    · split at h
      · next hnew =>
          cases h
          exact ⟨Nat.lt_succ_self i, hnew.1, rfl⟩
      · exact hold h
  obtain ⟨h₁, h₂⟩ := hinv s id k h
  exact ⟨by omega, h₂⟩

theorem length_mergeAt {tokens : List Int} {k : Nat} (h : k + 1 < tokens.length) (id : Int) :
    (mergeAt tokens k id).length + 1 = tokens.length := by
  rw [mergeAt, List.length_append, List.length_take, List.length_cons, List.length_drop]
  omega

/-- More fuel than there are tokens changes nothing. -/
theorem tqMerge_fuel : ∀ {n m : Nat} {tokens : List Int}, tokens.length ≤ n → n ≤ m →
    tqMerge gt T n tokens = tqMerge gt T m tokens := by
  intro n
  induction n with
  | zero =>
      intro m tokens hn _
      obtain rfl := List.eq_nil_of_length_eq_zero (Nat.le_zero.mp hn)
      cases m <;> rfl
  | succ n ih =>
      intro m tokens hn hm
      obtain ⟨m, rfl⟩ : ∃ k, m = k + 1 := ⟨m - 1, by omega⟩
      rw [tqMerge, tqMerge]
      cases hbest : tqBestMerge gt T tokens with
      | none => rfl
      | some best =>
          obtain ⟨s, id, k⟩ := best
          have hlen := length_mergeAt (tqBestMerge_some gt T hbest).1 id
          exact ih (by omega) (by omega)

end Fuel

/-! ## Room -/

section Room
variable {S : Type} (gt : S → S → Bool) (T : TqTokenizer S) {maxTokens : Nat}

theorem tqPush_length_le {tokens r : List Int} {v : Int} (h : tqPush maxTokens tokens v = .ok r) :
    r.length ≤ maxTokens := by
  unfold tqPush at h
  split at h
  · cases h
  · cases h
    rw [List.length_append, List.length_singleton]
    omega

theorem tqEncodeRun_length_le {run : List UInt8} {tokens r : List Int}
    (hlen : tokens.length ≤ maxTokens) (h : tqEncodeRun T maxTokens tokens run = .ok r) :
    r.length ≤ maxTokens := by
  have hfold : ∀ (run : List UInt8) (tokens : List Int), tokens.length ≤ maxTokens →
      run.foldlM (fun tokens c =>
        let b := tqByteToken T c
        if b ≥ 0 then tqPush maxTokens tokens b else .ok tokens) tokens = .ok r →
      r.length ≤ maxTokens := by
    intro run
    induction run with
    | nil =>
        intro tokens hlen h
        cases h
        exact hlen
    | cons c run ih =>
        intro tokens hlen h
        rw [List.foldlM_cons] at h
        dsimp only [bind, Except.bind] at h
        split at h
        · cases h
        · next tokens' hpush =>
            refine ih tokens' ?_ h
            split at hpush
            · exact tqPush_length_le hpush
            · cases hpush
              exact hlen
  unfold tqEncodeRun at h
  dsimp only at h
  split at h
  · exact tqPush_length_le h
  · exact hfold run tokens hlen h

theorem tqSplit_length_le : ∀ {k : Nat} {text : List UInt8} {tokens r : List Int},
    tokens.length ≤ maxTokens → tqSplit T maxTokens k text tokens = .ok r → r.length ≤ maxTokens
  | 0, _, _, _, hlen, h => by
      cases h
      exact hlen
  | _ + 1, [], _, _, hlen, h => by
      cases h
      exact hlen
  | k + 1, c :: text, tokens, r, hlen, h => by
      rw [tqSplit] at h
      dsimp only [bind, Except.bind] at h
      split at h
      · cases h
      · next tokens' hrun => exact tqSplit_length_le (tqEncodeRun_length_le T hlen hrun) h

theorem tqMerge_length_le : ∀ (n : Nat) (tokens : List Int),
    (tqMerge gt T n tokens).length ≤ tokens.length
  | 0, _ => Nat.le_refl _
  | n + 1, tokens => by
      rw [tqMerge]
      split
      · exact Nat.le_refl _
      · next s id k hbest =>
          have hmerge := length_mergeAt (tqBestMerge_some gt T hbest).1 id
          have hrest := tqMerge_length_le n (mergeAt tokens k id)
          omega

/-- What follows BOS and the space keeps to the buffer. -/
theorem tqEncode_rest_length_le {text : List UInt8} {addEos : Bool} {tokens r : List Int}
    (hlen : tokens.length ≤ maxTokens)
    (h : (do
      let tokens ← tqSplit T maxTokens text.length text tokens
      let tokens := tqMerge gt T tokens.length tokens
      if addEos then tqPush maxTokens tokens T.eos else .ok tokens) = .ok r) :
    r.length ≤ maxTokens := by
  dsimp only [bind, Except.bind] at h
  split at h
  · cases h
  · next split hsplit =>
      have hroom := tqSplit_length_le T hlen hsplit
      have hmerge := tqMerge_length_le gt T split.length split
      split at h
      · exact tqPush_length_le h
      · cases h
        exact hmerge.trans hroom

/-- **The buffer is never overrun.** -/
theorem tqEncode_length_le {text : List UInt8} {addBos addEos : Bool} {r : List Int}
    (h : tqEncode gt T text addBos addEos maxTokens = .ok r) : r.length ≤ maxTokens := by
  have hspace : ∀ {tokens : List Int}, tokens.length ≤ maxTokens →
      (do
        let tokens ← if text ≠ [] ∧ tqLookup T (ascii " ") ≥ 0 then
          tqPush maxTokens tokens (tqLookup T (ascii " ")) else .ok tokens
        let tokens ← tqSplit T maxTokens text.length text tokens
        let tokens := tqMerge gt T tokens.length tokens
        if addEos then tqPush maxTokens tokens T.eos else .ok tokens) = .ok r →
      r.length ≤ maxTokens := by
    intro tokens hlen h
    dsimp only at h
    rcases Decidable.em (text ≠ [] ∧ tqLookup T (ascii " ") ≥ 0) with hsp | hsp
    · rw [if_pos hsp] at h
      cases hpush : tqPush maxTokens tokens (tqLookup T (ascii " ")) with
      | error rc =>
          rw [hpush] at h
          cases h
      | ok tokens' =>
          rw [hpush] at h
          exact tqEncode_rest_length_le gt T (tqPush_length_le hpush) h
    · rw [if_neg hsp] at h
      exact tqEncode_rest_length_le gt T hlen h
  unfold tqEncode at h
  dsimp only at h
  rcases Bool.eq_false_or_eq_true addBos with rfl | rfl
  · rw [if_pos rfl] at h
    cases hpush : tqPush maxTokens [] T.bos with
    | error rc =>
        rw [hpush] at h
        cases h
    | ok tokens =>
        rw [hpush] at h
        exact hspace (tqPush_length_le hpush) h
  · rw [if_neg Bool.false_ne_true] at h
    exact hspace (Nat.zero_le _) h

end Room

end TinyLlm
