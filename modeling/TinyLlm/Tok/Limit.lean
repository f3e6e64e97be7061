/-
# `TinyLlm.Tok.Limit` — the limit on the tokens of `tq_encode`

The array that the caller provides also holds the tokens before they are merged,
so `max_tokens` bounds them as well as the result.  What is pushed one token at
a time either fits as a whole or fails (`pushAll_append`), and so the encoder
returns what it would with unlimited room exactly when the tokens of the code
points, behind BOS and the space, and the result both fit (`tqEncode_limit`).
-/
import TinyLlm.Tok.Bracket

namespace TinyLlm

/-- All of `vs` pushed, or none of the run is left. -/
def pushAll (maxTokens : Nat) (tokens vs : List Int) : Except TqStatus (List Int) :=
  if tokens.length + vs.length ≤ maxTokens then .ok (tokens ++ vs) else .error .errNomem

section Push
variable {maxTokens : Nat} {tokens vs : List Int}

theorem pushAll_nil (h : tokens.length ≤ maxTokens) : pushAll maxTokens tokens [] = .ok tokens := by
  rw [pushAll, if_pos (by rw [List.length_nil]; exact h), List.append_nil]

theorem tqPush_eq (h : tokens.length ≤ maxTokens) (v : Int) :
    tqPush maxTokens tokens v = pushAll maxTokens tokens [v] := by
  unfold tqPush pushAll
  rw [List.length_singleton]
  by_cases hfull : tokens.length ≥ maxTokens
  · rw [if_pos hfull, if_neg (by omega)]
  · rw [if_neg hfull, if_pos (by omega)]

/-- **Pushing in two parts** is pushing all at once. -/
theorem pushAll_append {rest : List Int → Except TqStatus (List Int)} (ws : List Int)
    (hrest : ∀ out, out.length ≤ maxTokens → rest out = pushAll maxTokens out ws) :
    (pushAll maxTokens tokens vs >>= rest) = pushAll maxTokens tokens (vs ++ ws) := by
  by_cases hfits : tokens.length + vs.length ≤ maxTokens
  · have hfirst : pushAll maxTokens tokens vs = .ok (tokens ++ vs) := if_pos hfits
    have hsecond := hrest (tokens ++ vs) (by rw [List.length_append]; exact hfits)
    rw [hfirst]
    refine hsecond.trans ?_
    unfold pushAll
    rw [List.length_append, List.length_append, List.append_assoc, Nat.add_assoc]
  · have hfirst : pushAll maxTokens tokens vs = .error .errNomem := if_neg hfits
    have hall : pushAll maxTokens tokens (vs ++ ws) = .error .errNomem := by
      refine if_neg ?_
      rw [List.length_append]
      omega
    rw [hfirst, hall]
    rfl

end Push

section Limit
variable {S : Type} (gt : S → S → Bool) (T : TqTokenizer S) {maxTokens : Nat}

theorem byteFallback_limit : ∀ (run : List UInt8) {tokens : List Int}, tokens.length ≤ maxTokens →
    run.foldlM (fun tokens c =>
      let b := tqByteToken T c
      if b ≥ 0 then tqPush maxTokens tokens b else .ok tokens) tokens
    = pushAll maxTokens tokens ((run.map (tqByteToken T)).filter (· ≥ 0)) := by
  intro run
  induction run with
  | nil =>
      intro tokens h
      exact (pushAll_nil h).symm
  | cons c run ih =>
      intro tokens h
      rw [List.foldlM_cons, List.map_cons]
      dsimp only
      by_cases hb : tqByteToken T c ≥ 0
      · have hkept : ∀ bs : List Int, (tqByteToken T c :: bs).filter (· ≥ 0) =
            [tqByteToken T c] ++ bs.filter (· ≥ 0) :=
            fun bs => List.filter_cons_of_pos (decide_eq_true hb)
        rw [if_pos hb, tqPush_eq h, hkept]
        exact pushAll_append _ fun out hout => ih hout
      · have hdropped : ∀ bs : List Int, (tqByteToken T c :: bs).filter (· ≥ 0) =
            bs.filter (· ≥ 0) :=
          fun bs => List.filter_cons_of_neg (by simpa using hb)
        rw [if_neg hb, hdropped]
        exact ih h

/-- A run is pushed as a whole. -/
theorem tqEncodeRun_limit (run : List UInt8) {tokens : List Int} (h : tokens.length ≤ maxTokens) :
    tqEncodeRun T maxTokens tokens run = pushAll maxTokens tokens (runTokens (tqLookup T) run) := by
  unfold tqEncodeRun runTokens
  dsimp only
  split
  · exact tqPush_eq h _
  · exact byteFallback_limit T run h

/-- So are all of them. -/
theorem tqSplit_limit :
    ∀ (k : Nat) (text : List UInt8) {tokens : List Int}, tokens.length ≤ maxTokens →
    tqSplit T maxTokens k text tokens =
      pushAll maxTokens tokens ((runs k text).flatMap (runTokens (tqLookup T))) := by
  intro k
  induction k with
  | zero =>
      intro text tokens h
      exact (pushAll_nil h).symm
  | succ k ih =>
      intro text tokens h
      cases text with
      | nil => exact (pushAll_nil h).symm
      | cons c text =>
          rw [tqSplit, runs, List.flatMap_cons, tqEncodeRun_limit T _ h]
          exact pushAll_append _ fun out hout => ih _ hout

/-- The tokens before any is merged. -/
def unmerged (addBos : Bool) (text : List UInt8) : List Int :=
  (if addBos then [T.bos] else []) ++ textTokens (tqLookup T) text

/-- **What is pushed before the merging** fits as a whole or fails. -/
theorem tqEncode_pushed (text : List UInt8) (addBos addEos : Bool) :
    tqEncode gt T text addBos addEos maxTokens =
      (pushAll maxTokens [] (unmerged T addBos text) >>= fun tokens =>
        let tokens := tqMerge gt T tokens.length tokens
        if addEos then tqPush maxTokens tokens T.eos else .ok tokens) := by
  have htext : ∀ start : List Int, start.length ≤ maxTokens →
      ((if text ≠ [] ∧
        tqLookup T (ascii " ") ≥ 0 then tqPush maxTokens start (tqLookup T (ascii " "))
        else .ok start) >>= fun tokens => tqSplit T maxTokens text.length text tokens) =
      pushAll maxTokens start (textTokens (tqLookup T) text) := by
    intro start hstart
    have hsplit : ∀ out : List Int, out.length ≤ maxTokens →
        tqSplit T maxTokens text.length text out =
        pushAll maxTokens out
          ((runs text.length text).flatMap (runTokens (tqLookup T))) := fun out hout =>
      tqSplit_limit T text.length text hout
    unfold textTokens
    split
    · rw [tqPush_eq hstart]
      exact pushAll_append _ hsplit
    · exact hsplit start hstart
  have hbos : (if addBos then tqPush maxTokens [] T.bos else .ok []) =
      pushAll maxTokens [] (if addBos then [T.bos] else []) := by
    cases addBos with
    | true => exact tqPush_eq (Nat.zero_le maxTokens) T.bos
    | false => exact (pushAll_nil (Nat.zero_le maxTokens)).symm
  have hall := @pushAll_append maxTokens [] (if addBos then [T.bos] else []) _
    (textTokens (tqLookup T) text) htext
  unfold unmerged
  rw [← hall, ← hbos]
  unfold tqEncode
  by_cases hspace : text ≠ [] ∧ tqLookup T (ascii " ") ≥ 0
  · simp only [if_pos hspace, bind_assoc]
    cases addBos <;> rfl
  · simp only [if_neg hspace, bind_assoc]
    cases addBos <;> rfl

/-- **The limit.**  With unlimited room the encoder returns some `E`, and with
`maxTokens` it returns `E` if the unmerged tokens and `E` both fit, and else
`TQ_ERR_NOMEM`. -/
theorem tqEncode_limit (text : List UInt8) (addBos addEos : Bool) (maxTokens : Nat) :
    ∃ E, (∀ room, text.length + 3 ≤ room → tqEncode gt T text addBos addEos room = .ok E) ∧
      tqEncode gt T text addBos addEos maxTokens =
        if (unmerged T addBos text).length ≤ maxTokens ∧ E.length ≤ maxTokens then .ok E
        else .error .errNomem := by
  have hmerged := tqMerge_length_le gt T (unmerged T addBos text).length (unmerged T addBos text)
  have hroomy : ∀ room, text.length + 3 ≤ room → tqEncode gt T text addBos addEos room =
      .ok (tqMerge gt T (unmerged T addBos text).length (unmerged T addBos text) ++
        if addEos then [T.eos] else []) := fun room hroom => tqEncode_eq T gt hroom addBos addEos
  refine ⟨_, hroomy, ?_⟩
  rw [tqEncode_pushed]
  by_cases hfits : (unmerged T addBos text).length ≤ maxTokens
  · have hpushed : pushAll maxTokens [] (unmerged T addBos text) =
        .ok (unmerged T addBos text) := by
      refine if_pos ?_
      rw [List.length_nil, Nat.zero_add]
      exact hfits
    rw [hpushed]
    change (if addEos then tqPush maxTokens
      (tqMerge gt T (unmerged T addBos text).length (unmerged T addBos text)) T.eos else .ok
      (tqMerge gt T (unmerged T addBos text).length (unmerged T addBos text))) = _
    generalize tqMerge gt T (unmerged T addBos text).length (unmerged T addBos text) =
      merged at hmerged ⊢
    have hend : (if addEos then tqPush maxTokens merged T.eos else .ok merged) =
        pushAll maxTokens merged (if addEos then [T.eos] else []) := by
      cases addEos with
      | true => exact tqPush_eq (hmerged.trans hfits) T.eos
      | false => exact (pushAll_nil (hmerged.trans hfits)).symm
    refine hend.trans ?_
    unfold pushAll
    rw [List.length_append]
    exact if_congr (and_iff_right hfits).symm rfl rfl
  · have hpushed : pushAll maxTokens [] (unmerged T addBos text) = .error .errNomem := by
      refine if_neg ?_
      rw [List.length_nil, Nat.zero_add]
      exact hfits
    rw [hpushed, if_neg fun h => hfits h.1]
    rfl

end Limit

/-- A space, a letter, and the letter behind a space. -/
def spacedVocab : PieceVocab Nat where
  pieces := [ascii " ", ascii " a", ascii "a"]
  scores _ := 0
  count_lt := by decide
  blob_lt := by decide

theorem spacedVocab_sorted : buildSorted spacedVocab.pieces = List.range 3 :=
  List.mergeSort_of_pairwise (by decide)

/-- The letter is one token in the end, and two before: an array of one does not do. -/
theorem tqEncode_unmerged :
    ¬ ∀ (V : PieceVocab Nat) (bos eos : Int) (bufBytes : Nat) (text : List UInt8) (addBos
      addEos : Bool)
      (E : List Int), (∀ room, text.length + 3 ≤ room →
        tqEncode (fun a b => decide (a > b)) (V.tokenizer bos eos bufBytes) text addBos addEos
        room = .ok E) →
      ∀ maxTokens, tqEncode (fun a b => decide (a > b)) (V.tokenizer bos eos bufBytes)
        text addBos addEos
        maxTokens = if E.length ≤ maxTokens then .ok E else .error .errNomem := by
  intro hall
  have hroomy : tqEncode (fun a b => decide (a > b)) (spacedVocab.tokenizer 0 0 64) (ascii "a")
      false false 4 =
      .ok [1] := by
    unfold PieceVocab.tokenizer
    rw [spacedVocab_sorted]
    decide +kernel
  have htight : tqEncode (fun a b => decide (a > b)) (spacedVocab.tokenizer 0 0 64) (ascii "a")
      false false 1 =
      .error .errNomem := by
    unfold PieceVocab.tokenizer
    rw [spacedVocab_sorted]
    decide +kernel
  have hE : ∀ room, (ascii "a").length + 3 ≤ room → tqEncode (fun a b => decide (a > b))
      (spacedVocab.tokenizer 0 0 64) (ascii "a") false false room = .ok [1] := by
    intro room hroom
    rw [tqEncode_eq _ _ hroom, ← hroomy]
    exact (tqEncode_eq _ _ (by decide) false false).symm
  exact absurd (htight.symm.trans (hall _ 0 0 64 _ false false [1] hE 1)) (by decide)

end TinyLlm
