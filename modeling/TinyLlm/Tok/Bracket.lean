/-
# `TinyLlm.Tok.Bracket` — BOS and EOS around the tokens of a text

EOS is put behind the tokens when all merging is done.  BOS is put before them
when none is: the merge loop runs over the whole array, so BOS joins with the
first token of the text as soon as some piece starts with BOS's.

The merge loop is byte pair encoding over the tokens (`tqMerge_eq`), and a map
of it to the pieces is byte pair encoding over these, where adjacent pieces
join if their concatenation is a piece of the vocabulary that fits the buffer
(`pieceJoin`).  The pieces of a text before any merge are `textPieces`.

With BOS the encoder returns the tokens of the text in brackets if in every
round of merging the text's pieces BOS's piece joined with the first of them is
no piece, or is outdone by a later pair, and for scores that are ranked (none
of them a NaN) only if (`tqEncode_brackets`).  Where no piece continues BOS's
this holds of every text (`brackets_of_unextended`).
-/
import TinyLlm.Lib.Bpe
import TinyLlm.Tok.RoundTrip

namespace TinyLlm

open Loop Champion Bpe

/-! ## Before any merge -/

section Text
variable (look : List UInt8 → Int)

/-- The tokens of a run, or those of its bytes, as `look` finds them. -/
def runTokens (run : List UInt8) : List Int :=
  if look run ≥ 0 then [look run] else (run.map fun b => look (byteName b)).filter (· ≥ 0)

/-- The tokens of a text before any of them is merged. -/
def textTokens (text : List UInt8) : List Int :=
  (if text ≠ [] ∧ look (ascii " ") ≥ 0 then [look (ascii " ")] else []) ++
    (runs text.length text).flatMap (runTokens look)

theorem length_runTokens {run : List UInt8} (h : 0 < run.length) :
    (runTokens look run).length ≤ run.length := by
  unfold runTokens
  split
  · exact h
  · exact (List.length_filter_le _ _).trans (List.length_map _).le

/-- A text has no more tokens than bytes, but for the space. -/
theorem length_runsTokens : ∀ (k : Nat) (text : List UInt8),
    ((runs k text).flatMap (runTokens look)).length ≤ text.length := by
  intro k
  induction k with
  | zero => exact fun _ => Nat.zero_le _
  | succ k ih =>
      intro text
      cases text with
      | nil => exact Nat.zero_le _
      | cons c text =>
          have hpos := runLen_pos c (text.length + 1)
          have hle := runLen_le c (Nat.succ_pos text.length)
          rw [runs, List.flatMap_cons, List.length_append]
          generalize runLen c (text.length + 1) = len at hpos hle ⊢
          have htake : ((c :: text).take len).length = len := by
            rw [List.length_take, List.length_cons]
            omega
          have hdrop : ((c :: text).drop len).length = text.length + 1 - len := List.length_drop
          have hrun := @length_runTokens look ((c :: text).take len) (by omega)
          have hrest := ih ((c :: text).drop len)
          rw [List.length_cons]
          omega

end Text

section Text
variable {S : Type} (T : TqTokenizer S)

theorem byteFallback_eq {maxTokens : Nat} : ∀ (run : List UInt8) {tokens : List Int},
    tokens.length + run.length ≤ maxTokens →
      run.foldlM (fun tokens c =>
        let b := tqByteToken T c
        if b ≥ 0 then tqPush maxTokens tokens b else .ok tokens) tokens
      = .ok (tokens ++ (run.map (tqByteToken T)).filter (· ≥ 0)) := by
  intro run
  induction run with
  | nil =>
      intro tokens _
      exact congrArg Except.ok (List.append_nil tokens).symm
  | cons c run ih =>
      intro tokens hlen
      rw [List.length_cons] at hlen
      rw [List.foldlM_cons, List.map_cons]
      dsimp only
      by_cases hb : tqByteToken T c ≥ 0
      · have hkept : ∀ bs : List Int, (tqByteToken T c :: bs).filter (· ≥ 0) =
            tqByteToken T c :: bs.filter (· ≥ 0) :=
            fun bs => List.filter_cons_of_pos (decide_eq_true hb)
        rw [if_pos hb, tqPush_ok _ (by omega), hkept]
        refine (ih (by rw [List.length_append, List.length_singleton]; omega)).trans ?_
        rw [List.append_assoc, List.singleton_append]
      · have hdropped : ∀ bs : List Int, (tqByteToken T c :: bs).filter (· ≥ 0) =
            bs.filter (· ≥ 0) :=
          fun bs => List.filter_cons_of_neg (by simpa using hb)
        rw [if_neg hb, hdropped]
        exact ih (by omega)

theorem tqEncodeRun_eq {maxTokens : Nat} {run : List UInt8} (hpos : 0 < run.length)
    {tokens : List Int} (hlen : tokens.length + run.length ≤ maxTokens) :
    tqEncodeRun T maxTokens tokens run = .ok (tokens ++ runTokens (tqLookup T) run) := by
  unfold tqEncodeRun runTokens
  dsimp only
  split
  · exact tqPush_ok _ (by omega)
  · exact byteFallback_eq T run hlen

/-- **Splitting** pushes the tokens of each run. -/
theorem tqSplit_eq {maxTokens : Nat} : ∀ (k : Nat) {text : List UInt8} {tokens : List Int},
    text.length ≤ k → tokens.length + text.length ≤ maxTokens →
      tqSplit T maxTokens k text tokens =
      .ok (tokens ++ (runs k text).flatMap (runTokens (tqLookup T))) := by
  intro k
  induction k with
  | zero =>
      intro text tokens hk _
      obtain rfl := List.eq_nil_of_length_eq_zero (Nat.le_zero.mp hk)
      exact congrArg Except.ok (List.append_nil tokens).symm
  | succ k ih =>
      intro text tokens hk hlen
      cases text with
      | nil => exact congrArg Except.ok (List.append_nil tokens).symm
      | cons c text =>
          have hpos := runLen_pos c (text.length + 1)
          have hle := runLen_le c (Nat.succ_pos text.length)
          rw [List.length_cons] at hk hlen
          rw [runs, tqSplit, List.flatMap_cons]
          generalize runLen c (text.length + 1) = len at hpos hle ⊢
          have htake : ((c :: text).take len).length = len := by
            rw [List.length_take, List.length_cons]
            omega
          have hdrop : ((c :: text).drop len).length = text.length + 1 - len := List.length_drop
          have hpos : 0 < ((c :: text).take len).length := by omega
          have hrun := length_runTokens (tqLookup T) hpos
          have hrest :=
            @ih ((c :: text).drop len) (tokens ++ runTokens (tqLookup T) ((c :: text).take len))
            (by omega) (by rw [List.length_append]; omega)
          rw [tqEncodeRun_eq T (by omega) (by omega)]
          refine hrest.trans ?_
          rw [List.append_assoc]

/-- What follows BOS and the space, with room for the text and EOS. -/
theorem encodeRest_eq (gt : S → S → Bool) {text : List UInt8} {maxTokens : Nat} {tokens : List Int}
    (hroom : tokens.length + text.length < maxTokens) (addEos : Bool) :
    (do
      let tokens ← tqSplit T maxTokens text.length text tokens
      let tokens := tqMerge gt T tokens.length tokens
      if addEos then tqPush maxTokens tokens T.eos else .ok tokens) =
    let tokens := tokens ++ (runs text.length text).flatMap (runTokens (tqLookup T))
    .ok (tqMerge gt T tokens.length tokens ++ if addEos then [T.eos] else []) := by
  have hsplit := @tqSplit_eq S T maxTokens text.length text tokens (Nat.le_refl _) hroom.le
  have hcount := length_runsTokens (tqLookup T) text.length text
  have hmerge :=
    tqMerge_length_le gt T
    (tokens ++ (runs text.length text).flatMap (runTokens (tqLookup T))).length
    (tokens ++ (runs text.length text).flatMap (runTokens (tqLookup T)))
  rw [List.length_append] at hmerge
  rw [hsplit]
  cases addEos with
  | true => exact tqPush_ok _ (by rw [List.length_append]; omega)
  | false => exact congrArg Except.ok (List.append_nil _).symm

/-- **Encoding** with room for the brackets. -/
theorem tqEncode_eq (gt : S → S → Bool) {text : List UInt8} {maxTokens : Nat}
    (hroom : text.length + 3 ≤ maxTokens) (addBos addEos : Bool) :
    tqEncode gt T text addBos addEos maxTokens =
      let tokens := (if addBos then [T.bos] else []) ++ textTokens (tqLookup T) text
      .ok (tqMerge gt T tokens.length tokens ++ if addEos then [T.eos] else []) := by
  have hspace : ∀ start : List Int, start.length ≤ 1 → (do
      let tokens ← if text ≠ [] ∧ tqLookup T (ascii " ") ≥ 0 then
        tqPush maxTokens start (tqLookup T (ascii " ")) else .ok start
      let tokens ← tqSplit T maxTokens text.length text tokens
      let tokens := tqMerge gt T tokens.length tokens
      if addEos then tqPush maxTokens tokens T.eos else .ok tokens) =
      let tokens := start ++ textTokens (tqLookup T) text
      .ok (tqMerge gt T tokens.length tokens ++ if addEos then [T.eos] else []) := by
    intro start hstart
    unfold textTokens
    rw [← List.append_assoc]
    by_cases hsp : text ≠ [] ∧ tqLookup T (ascii " ") ≥ 0
    · rw [if_pos hsp, if_pos hsp, tqPush_ok _ (by omega)]
      exact encodeRest_eq T gt (by rw [List.length_append, List.length_singleton]; omega) addEos
    · rw [if_neg hsp, if_neg hsp, List.append_nil]
      exact encodeRest_eq T gt (by omega) addEos
  cases addBos with
  | true =>
      have hpush : tqPush maxTokens [] T.bos = .ok [T.bos] :=
        tqPush_ok _ (by rw [List.length_nil]; omega)
      unfold tqEncode
      dsimp only
      rw [if_pos rfl, hpush]
      exact hspace [T.bos] (Nat.le_refl 1)
  | false => exact hspace [] (Nat.zero_le 1)

end Text

/-! ## Merging, by the round -/

section Merge
variable {S : Type} (gt : S → S → Bool) (T : TqTokenizer S)

/-- The token that two tokens join to, with its score. -/
def tokenJoin (a b : Int) : Option (S × Int) :=
  let p := tqPiece T a
  let q := tqPiece T b
  if p.length + q.length > T.bufBytes then none
  else if tqLookup T (p ++ q) ≥
    0 then some (T.scores (tqLookup T (p ++ q)).toNat, tqLookup T (p ++ q))
  else none

/-- The inner loop keeps the champion of the pairs. -/
theorem tqBestStep_eq {tokens : List Int} {k : Nat} (hk : k < tokens.length - 1)
    (best : Option (S × Int × Nat)) :
    tqBestStep gt T tokens k best =
      (pair (tokenJoin T) tokens k).elim best (challenge gt best) := by
  have ha : tokens[k]? = some (tokens.getD k 0) := by
    rw [List.getD_eq_getElem _ _ (by omega), List.getElem?_eq_getElem]
  have hb : tokens[k + 1]? = some (tokens.getD (k + 1) 0) := by
    rw [List.getD_eq_getElem _ _ (by omega), List.getElem?_eq_getElem]
  unfold tqBestStep pair tokenJoin
  rw [ha, hb]
  dsimp only
  split
  · rfl
  · by_cases hid : tqLookup T (tqPiece T (tokens.getD k 0) ++ tqPiece T (tokens.getD (k + 1) 0)) ≥ 0
    · rw [if_pos hid, Option.map_some, Option.elim_some, challenge]
      simp only [hid, true_and]
    · rw [if_neg hid, if_neg fun h => hid h.1]
      rfl

theorem tqBestMerge_eq (tokens : List Int) :
    tqBestMerge gt T tokens = best gt (tokenJoin T) tokens :=
  forUp_congr none fun _ hk best => tqBestStep_eq gt T hk best

/-- **The merge loop** is byte pair encoding over the tokens. -/
theorem tqMerge_eq : ∀ (n : Nat) (tokens : List Int),
    tqMerge gt T n tokens = rounds gt (tokenJoin T) n tokens := by
  intro n
  induction n with
  | zero => exact fun _ => rfl
  | succ n ih =>
      intro tokens
      rw [tqMerge, rounds, tqBestMerge_eq]
      cases best gt (tokenJoin T) tokens with
      | none => rfl
      | some c => exact ih _

/-! ## Pieces -/

/-- The score of a piece of the vocabulary. -/
def pieceScore (s : List UInt8) : Option S :=
  if tqLookup T s ≥ 0 then some (T.scores (tqLookup T s).toNat) else none

/-- Two pieces join if they fit the buffer together and their concatenation is a
piece of the vocabulary. -/
def pieceJoin (p q : List UInt8) : Option (S × List UInt8) :=
  if p.length + q.length > T.bufBytes then none else (pieceScore T (p ++ q)).map
    fun s => (s, p ++ q)

variable {T} {pieces : List (List UInt8)} (hT : T.Carries pieces)
include hT

/-- **Only pieces have a score**, and it is one that the vocabulary lists for them. -/
theorem pieceScore_some {s : List UInt8} {x : S} (h : pieceScore T s = some x) :
    ∃ i < pieces.length, pieces.getD i [] = s ∧ x = T.scores i := by
  unfold pieceScore at h
  split at h
  · next hid =>
      rcases hT.tqLookup s with ⟨-, i, hi, heq, hp⟩ | ⟨-, heq⟩
      · rw [heq] at h
        exact ⟨i, hi, hp, (Option.some.inj h).symm⟩
      · rw [heq] at hid
        exact absurd hid (by decide)
  · cases h

theorem pieceScore_eq_none {s : List UInt8} : pieceScore T s = none ↔ s ∉ pieces := by
  unfold pieceScore
  rcases hT.tqLookup s with ⟨hmem, i, -, heq, -⟩ | ⟨hnot, heq⟩
  · have hid : tqLookup T s ≥ 0 := by omega
    rw [if_pos hid]
    exact ⟨fun h => (Option.some_ne_none _ h).elim, fun h => absurd hmem h⟩
  · rw [heq]
    exact ⟨fun _ => hnot, fun _ => rfl⟩

theorem lookup_piece {s : List UInt8} (h : 0 ≤ tqLookup T s) : tqPiece T (tqLookup T s) = s := by
  rcases hT.tqLookup s with ⟨-, i, hi, heq, hp⟩ | ⟨-, heq⟩
  · rw [heq, hT.piece i hi, hp]
  · rw [heq] at h
    exact absurd h (by decide)

/-- **Tokens join as their pieces do.** -/
theorem pieceJoin_eq (a b : Int) :
    pieceJoin T (tqPiece T a) (tqPiece T b) = (tokenJoin T a b).map (Prod.map id (tqPiece T)) := by
  unfold pieceJoin tokenJoin pieceScore
  dsimp only
  split
  · rfl
  · split
    · next hid =>
        rw [Option.map_some, Option.map_some, Prod.map_apply, lookup_piece hT hid]
        rfl
    · rfl

theorem tokenJoin_length (a b : Int) (c : S × Int) (h : tokenJoin T a b = some c) :
    (tqPiece T c.2).length = (tqPiece T a).length + (tqPiece T b).length := by
  unfold tokenJoin at h
  dsimp only at h
  split at h
  · cases h
  · split at h
    · next hid =>
        cases h
        rw [lookup_piece hT hid, List.length_append]
    · cases h

theorem tokenJoin_score (a b : Int) (c : S × Int) (h : tokenJoin T a b = some c) :
    ∃ i < pieces.length, c.1 = T.scores i := by
  have hjoin := pieceJoin_eq hT a b
  rw [h] at hjoin
  unfold pieceJoin at hjoin
  split at hjoin
  · cases hjoin
  · obtain ⟨x, hx, heq⟩ := Option.map_eq_some_iff.mp hjoin
    obtain ⟨i, hi, -, hscore⟩ := pieceScore_some hT hx
    exact ⟨i, hi, (congrArg Prod.fst heq).symm.trans hscore⟩

omit hT in
theorem pieceJoin_length (p q : List UInt8) (c : S × List UInt8) (h : pieceJoin T p q = some c) :
    c.2.length = p.length + q.length := by
  unfold pieceJoin at h
  split at h
  · cases h
  · obtain ⟨x, -, rfl⟩ := Option.map_eq_some_iff.mp h
    exact List.length_append

end Merge

/-! ## The pieces of a text -/

/-- The pieces of a run: itself, or the names of its bytes, where they are pieces. -/
def runPieces (pieces : List (List UInt8)) (run : List UInt8) : List (List UInt8) :=
  if run ∈ pieces then [run] else (run.map byteName).filter (· ∈ pieces)

/-- The pieces of a text before any of them is merged: a space, where it is one,
and those of each run. -/
def textPieces (pieces : List (List UInt8)) (text : List UInt8) : List (List UInt8) :=
  (if text ≠ [] ∧ ascii " " ∈ pieces then [ascii " "] else []) ++
    (runs text.length text).flatMap (runPieces pieces)

theorem runs_ne_nil : ∀ (k : Nat) (text : List UInt8), ∀ r ∈ runs k text, r ≠ [] := by
  intro k
  induction k with
  | zero =>
      intro _ _ hr
      cases hr
  | succ k ih =>
      intro text r hr
      cases text with
      | nil => cases hr
      | cons c text =>
          rcases List.mem_cons.mp hr with rfl | hr
          · have hpos := runLen_pos c (text.length + 1)
            obtain ⟨n, hn⟩ : ∃ n, runLen c (text.length + 1) = n + 1 :=
              ⟨_, (Nat.succ_pred hpos.ne').symm⟩
            rw [hn]
            exact List.cons_ne_nil _ _
          · exact ih _ r hr

/-- No piece of a text is empty. -/
theorem textPieces_ne_nil (pieces : List (List UInt8)) (text : List UInt8) :
    ∀ p ∈ textPieces pieces text, p ≠ [] := by
  intro p hp
  rcases List.mem_append.mp hp with hp | hp
  · split at hp
    · rw [List.mem_singleton.mp hp]
      decide
    · cases hp
  · obtain ⟨r, hr, hp⟩ := List.mem_flatMap.mp hp
    unfold runPieces at hp
    split at hp
    · rw [List.mem_singleton.mp hp]
      exact runs_ne_nil _ _ r hr
    · obtain ⟨b, -, rfl⟩ := List.mem_map.mp (List.mem_filter.mp hp).1
      exact List.cons_ne_nil _ _

section Text
variable {S : Type} {T : TqTokenizer S} {pieces : List (List UInt8)} (hT : T.Carries pieces)
include hT

theorem lookup_mem {s : List UInt8} : tqLookup T s ≥ 0 ↔ s ∈ pieces := by
  rcases hT.tqLookup s with ⟨hmem, i, -, heq, -⟩ | ⟨hnot, heq⟩
  · exact ⟨fun _ => hmem, fun _ => by omega⟩
  · rw [heq]
    exact ⟨fun h => absurd h (by decide), fun h => absurd h hnot⟩

theorem runTokens_pieces (run : List UInt8) :
    (runTokens (tqLookup T) run).map (tqPiece T) = runPieces pieces run := by
  have hbytes : ∀ bs : List UInt8, ((bs.map (tqByteToken T)).filter (· ≥ 0)).map (tqPiece T) =
      (bs.map byteName).filter (· ∈ pieces) := by
    intro bs
    induction bs with
    | nil => rfl
    | cons c bs ih =>
        have hmem : tqByteToken T c ≥ 0 ↔ byteName c ∈ pieces := lookup_mem hT
        rw [List.map_cons, List.map_cons, List.filter_cons, List.filter_cons]
        by_cases hc : tqByteToken T c ≥ 0
        · rw [if_pos (decide_eq_true hc), if_pos (decide_eq_true (hmem.mp hc)), List.map_cons, ih]
          exact congrArg (· :: _) (lookup_piece hT hc)
        · rw [if_neg (by simpa using hc), if_neg (by simpa using fun h => hc (hmem.mpr h)), ih]
  unfold runTokens runPieces
  by_cases h : tqLookup T run ≥ 0
  · rw [if_pos h, if_pos ((lookup_mem hT).mp h), List.map_singleton, lookup_piece hT h]
  · rw [if_neg h, if_neg fun hmem => h ((lookup_mem hT).mpr hmem)]
    exact hbytes run

/-- **The tokens of a text have its pieces.** -/
theorem textTokens_pieces (text : List UInt8) :
    (textTokens (tqLookup T) text).map (tqPiece T) = textPieces pieces text := by
  unfold textTokens textPieces
  rw [List.map_append, List.map_flatMap]
  simp only [runTokens_pieces hT]
  refine congrArg (· ++ _) ?_
  by_cases h : text ≠ [] ∧ tqLookup T (ascii " ") ≥ 0
  · rw [if_pos h, if_pos ⟨h.1, (lookup_mem hT).mp h.2⟩, List.map_singleton, lookup_piece hT h.2]
  · rw [if_neg h, if_neg fun hp => h ⟨hp.1, (lookup_mem hT).mpr hp.2⟩]
    rfl

end Text

/-! ## The law -/

section Law
variable {S : Type} (gt : S → S → Bool) (T : TqTokenizer S)

/-- With BOS and EOS asked for, the encoder returns the tokens of the text in brackets. -/
def Brackets (text : List UInt8) (maxTokens : Nat) : Prop :=
  ∃ tokens, tqEncode gt T text false false maxTokens = .ok tokens ∧
    tqEncode gt T text true true maxTokens = .ok (T.bos :: tokens ++ [T.eos])

/-- The law is one about merging. -/
theorem brackets_iff_merge {text : List UInt8} {maxTokens : Nat}
    (hroom : text.length + 3 ≤ maxTokens) :
    Brackets gt T text maxTokens ↔
      rounds gt (tokenJoin T) ((textTokens (tqLookup T) text).length + 1)
      (T.bos :: textTokens (tqLookup T) text) =
        T.bos :: rounds gt (tokenJoin T) ((textTokens (tqLookup T) text).length + 1)
        (textTokens (tqLookup T) text) := by
  have hplain := tqEncode_eq T gt hroom false false
  have hboth := tqEncode_eq T gt hroom true true
  have hfuel := tqMerge_fuel gt T (Nat.le_refl (textTokens (tqLookup T) text).length)
    (Nat.le_succ _)
  simp only [Bool.false_eq_true, if_false, if_true, List.nil_append, List.append_nil,
    List.singleton_append, List.length_cons] at hplain hboth
  unfold Brackets
  rw [hplain, hboth, hfuel, ← tqMerge_eq, ← tqMerge_eq]
  constructor
  · rintro ⟨tokens, htokens, hlaw⟩
    cases htokens
    exact List.append_cancel_right (Except.ok.inj hlaw)
  · intro hlaw
    exact ⟨_, rfl, congrArg (fun tokens => Except.ok (tokens ++ [T.eos])) hlaw⟩

/-- BOS is outdone in every round of merging the text's own pieces. -/
def BosOutdone (pieces : List (List UInt8)) (text : List UInt8) : Prop :=
  ∀ n, Outdone gt (pieceJoin T) (tqPiece T T.bos)
    (rounds gt (pieceJoin T) n (textPieces pieces text))

variable {pieces : List (List UInt8)} (hT : T.Carries pieces) {text : List UInt8} {maxTokens : Nat}
  (hroom : text.length + 3 ≤ maxTokens)
include hT hroom

theorem brackets_of_outdone (h : BosOutdone gt T pieces text) : Brackets gt T text maxTokens := by
  have hjoin := pieceJoin_eq hT
  unfold BosOutdone at h
  rw [← textTokens_pieces hT] at h
  simp only [rounds_map gt hjoin, outdone_map gt hjoin] at h
  rw [brackets_iff_merge gt T hroom]
  exact rounds_cons gt (tokenJoin T) _ h

theorem outdone_of_brackets (hranks : Ranks gt fun s => ∃ i < pieces.length, s = T.scores i)
    (h : Brackets gt T text maxTokens) : BosOutdone gt T pieces text := by
  have hjoin := pieceJoin_eq hT
  have hpos : ∀ t ∈ textTokens (tqLookup T) text, 0 < (tqPiece T t).length := fun t ht =>
    List.length_pos_of_ne_nil
      (textPieces_ne_nil pieces text _ (textTokens_pieces hT text ▸ List.mem_map_of_mem ht))
  rw [brackets_iff_merge gt T hroom] at h
  unfold BosOutdone
  rw [← textTokens_pieces hT]
  simp only [rounds_map gt hjoin, outdone_map gt hjoin]
  exact outdone_of_rounds gt (tokenJoin_length hT) hranks (tokenJoin_score hT) _
    (Nat.lt_succ_self _) hpos h

/-- **Where no piece continues BOS's**, every text is bracketed. -/
theorem brackets_of_unextended (h : ∀ q ≠ [], tqPiece T T.bos ++ q ∉ pieces) :
    Brackets gt T text maxTokens := by
  refine brackets_of_outdone gt T hT hroom fun n q hq c hc => ?_
  have hpos : 0 < q.length := rounds_pos gt (pieceJoin_length (T := T)) n
    (fun x hx => List.length_pos_of_ne_nil (textPieces_ne_nil pieces text x hx)) q
    (List.mem_of_head? hq)
  have hnone : pieceScore T (tqPiece T T.bos ++ q) = none :=
    (pieceScore_eq_none hT).mpr (h q (List.ne_nil_of_length_pos hpos))
  unfold pieceJoin at hc
  rw [hnone] at hc
  split at hc <;> cases hc

/-- **BOS and EOS only bracket** if in every round of merging the text's own
pieces BOS's before them is outdone; where `gt` ranks the scores of the
vocabulary, only if. -/
theorem tqEncode_brackets :
    (BosOutdone gt T pieces text → Brackets gt T text maxTokens) ∧
    (Ranks gt (fun s => ∃ i < pieces.length, s = T.scores i) →
      Brackets gt T text maxTokens → BosOutdone gt T pieces text) :=
  ⟨brackets_of_outdone gt T hT hroom, outdone_of_brackets gt T hT hroom⟩

end Law

/-- A space, BOS, BOS followed by a space, and a letter. -/
def gluedVocab : PieceVocab Nat where
  pieces := [ascii " ", ascii "<s>", ascii "<s> ", ascii "a"]
  scores _ := 0
  count_lt := by decide
  blob_lt := by decide

/-- Its pieces are in their order already. -/
theorem gluedVocab_sorted : buildSorted gluedVocab.pieces = List.range 4 :=
  List.mergeSort_of_pairwise (by decide)

/-- The same with a space followed by the letter, of a better score. -/
def outdoneVocab : PieceVocab Nat where
  pieces := [ascii " ", ascii " a", ascii "<s>", ascii "<s> ", ascii "a"]
  scores i := [0, 2, 0, 1, 0].getD i 0
  count_lt := by decide
  blob_lt := by decide

theorem outdoneVocab_sorted : buildSorted outdoneVocab.pieces = List.range 5 :=
  List.mergeSort_of_pairwise (by decide)

/-- BOS would join with the space, but the space joins with the letter first. -/
theorem tqEncode_brackets_outdone :
    Brackets (fun a b => decide (a > b)) (outdoneVocab.tokenizer 2 4 64) (ascii "a") 4 := by
  have houtdone : ∀ xs ∈ [[ascii " ", ascii "a"], [ascii " a"]],
      Outdone (fun a b => decide (a > b)) (pieceJoin (outdoneVocab.tokenizer 2 4 64))
        (tqPiece (outdoneVocab.tokenizer 2 4 64) 2) xs := by
    unfold PieceVocab.tokenizer
    rw [outdoneVocab_sorted]
    decide +kernel
  have hbest : best (fun a b => decide (a > b)) (pieceJoin (outdoneVocab.tokenizer 2 4 64))
      [ascii " ", ascii "a"] = some (2, ascii " a", 0) := by
    unfold PieceVocab.tokenizer
    rw [outdoneVocab_sorted]
    decide +kernel
  have htext : textPieces outdoneVocab.pieces (ascii "a") = [ascii " ", ascii "a"] := by
    decide +kernel
  refine (tqEncode_brackets _ _ (outdoneVocab.tokenizer_carries 2 4 64) (by decide)).1
    fun n => houtdone _ ?_
  rw [htext]
  rcases n with _ | _ | n
  · exact List.mem_cons_self
  · rw [rounds, hbest]
    decide +kernel
  · rw [rounds, hbest]
    show rounds _ _ (n + 1) [ascii " a"] ∈ _
    rw [rounds]
    exact List.mem_cons_of_mem _ (List.mem_singleton_self _)

/-- With `<s>` as BOS it becomes a single token with the space before the text. -/
theorem tqEncode_glued :
    ¬ Brackets (fun a b => decide (a > b)) (gluedVocab.tokenizer 1 3 64) (ascii "a") 4 := by
  have hplain : tqEncode (fun a b => decide (a > b)) (gluedVocab.tokenizer 1 3 64) (ascii "a")
      false false 4 =
      .ok [0, 3] := by
    unfold PieceVocab.tokenizer
    rw [gluedVocab_sorted]
    decide +kernel
  have hboth : tqEncode (fun a b => decide (a > b)) (gluedVocab.tokenizer 1 3 64)
      (ascii "a") true true 4 =
      .ok [2, 3, 3] := by
    unfold PieceVocab.tokenizer
    rw [gluedVocab_sorted]
    decide +kernel
  rintro ⟨tokens, htokens, hlaw⟩
  cases hplain.symm.trans htokens
  exact absurd (hboth.symm.trans hlaw) (by decide)

end TinyLlm
