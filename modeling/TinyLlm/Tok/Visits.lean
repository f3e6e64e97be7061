/-
# `TinyLlm.Tok.Visits` — what an encoding reads, exactly

Neither the order of a vocabulary nor the header's BOS is ever checked.  A
search reads the entries of the order that lie on its path (`visited`) and the
pieces of the tokens there, so it reads inside exactly if it comes to tokens
only (`tqLookupLoop_exactly`).  Which strings are searched for is said without
the encoder: the space, the runs of a text and the names of their bytes, and
whatever two neighbours make in a round of byte pair encoding over the tokens
found.

`Exactly x P a` carries this through the encoder: `x` reads inside exactly if
`P` holds, and then returns `a`.  It is for a buffer with room
(`tqEncodeAt_exactly`); in a smaller one the call stops earlier, with a status
(`tqEncodeAt_stops`).
-/
import TinyLlm.Tok.Bracket
import TinyLlm.Tok.Reads

namespace TinyLlm

open Loop Bytes Bpe Champion

/-! ## Reading inside exactly if -/

/-- `x` reads inside exactly if `P` holds, and then returns `a`. -/
structure Exactly {α : Type} (x : Except TqStop α) (P : Prop) (a : α) : Prop where
  inside : P → x = .ok a
  outside : ¬ P → x = .error .outside

namespace Exactly
variable {α β : Type} {x : Except TqStop α} {P Q : Prop} {a : α}

theorem ok (h : P) : Exactly (.ok a) P a := ⟨fun _ => rfl, fun hn => absurd h hn⟩

theorem out (h : ¬ P) : Exactly (.error .outside) P a := ⟨fun hp => absurd hp h, fun _ => rfl⟩

theorem congr (h : Exactly x P a) (hPQ : P ↔ Q) : Exactly x Q a :=
  ⟨fun hq => h.inside (hPQ.mpr hq), fun hq => h.outside fun hp => hq (hPQ.mp hp)⟩

theorem bind {f : α → Except TqStop β} {b : β} (hx : Exactly x P a) (hf : P → Exactly (f a) Q b) :
    Exactly (x >>= f) (P ∧ Q) b := by
  by_cases hP : P
  · rw [hx.inside hP]
    exact (hf hP).congr ⟨fun hq => ⟨hP, hq⟩, fun h => h.2⟩
  · rw [hx.outside hP]
    exact .out fun h => hP h.1

theorem forUp {f : Nat → α → Except TqStop α} {g : Nat → α → α} {R : Nat → Prop} : ∀ {n : Nat},
    (∀ i < n, ∀ a, Exactly (f i a) (R i) (g i a)) →
      Exactly (forUpE f n a) (∀ i < n, R i) (Loop.forUp n g a)
  | 0, _ => .ok fun _ h => absurd h (Nat.not_lt_zero _)
  | n + 1, hstep => by
      have ih := forUp fun i hi => hstep i (Nat.lt_succ_of_lt hi)
      refine (ih.bind fun _ => hstep n (Nat.lt_succ_self n) _).congr ⟨fun h i hi => ?_, fun h => ?_⟩
      · rcases Nat.lt_succ_iff_lt_or_eq.mp hi with hi | rfl
        · exact h.1 i hi
        · exact h.2
      · exact ⟨fun i hi => h i (Nat.lt_succ_of_lt hi), h n (Nat.lt_succ_self n)⟩

end Exactly

/-! ## Searches -/

section Search
variable {S : Type} (T : TqTokenizer S)

/-- The token that the order lists at `k`. -/
def TqTokenizer.entry (k : Int) : Int := toInt32 (T.sorted k.toNat).toNat

/-- How a string lies to the piece of a token. -/
def TqTokenizer.order (s : List UInt8) (id : Int) : Ordering :=
  let n := if s.length < T.pieceLen id then s.length else T.pieceLen id
  let c := if n ≠ 0 then memcmp n s (slice T.blob (T.pieceStart id) n) else .eq
  if c ≠ .eq then c
  else if s.length = T.pieceLen id then .eq
  else if s.length < T.pieceLen id then .lt else .gt

/-- The places of the order that the search for a string comes to. -/
def TqTokenizer.visited (s : List UInt8) : List Int :=
  Search.path (fun k => T.order s (T.entry k)) T.vocabSize.toNat 0 (T.vocabSize - 1)

/-- The token that it finds, or -1. -/
def TqTokenizer.found (s : List UInt8) : Int :=
  (Search.bsearch (fun k => T.order s (T.entry k)) T.vocabSize.toNat 0 (T.vocabSize - 1)).elim
    (-1) T.entry

/-- The search comes to tokens only. -/
def TqTokenizer.SearchIn (s : List UInt8) : Prop := ∀ k ∈ T.visited s, T.Token (T.entry k)

variable {T} {blobBytes : Nat}

theorem found_token {s : List UInt8} (hin : T.SearchIn s) (h : T.found s ≥ 0) :
    T.Token (T.found s) := by
  unfold TqTokenizer.found at h ⊢
  cases hs : Search.bsearch (fun k => T.order s (T.entry k)) T.vocabSize.toNat 0
    (T.vocabSize - 1) with
  | none =>
      rw [hs] at h
      have h : (-1 : Int) ≥ 0 := h
      exact absurd h (by decide)
  | some k => exact hin k (Search.bsearch_mem hs)

/-- An order that lists tokens leads every search to tokens. -/
theorem searchIn_of_order (hsize : T.vocabSize < 2 ^ 31) (horder : T.OrderIn) (s : List UInt8) :
    T.SearchIn s := by
  intro k hk
  have hin := Search.path_mem hk
  have htoken := horder k.toNat (by omega)
  unfold TqTokenizer.entry
  rw [toInt32_token hsize htoken]
  exact htoken

theorem tqPieceAt_out {id : Int} (h : ¬ T.Token id) : tqPieceAt T id = .error .outside := by
  unfold tqPieceAt indexAt
  by_cases hid : 0 ≤ id ∧ id < T.vocabSize + 1
  · rw [if_pos hid, if_neg fun hnext => h ⟨hid.1, by omega⟩]
    rfl
  · rw [if_neg hid]
    rfl

variable (hpieces : T.PiecesIn blobBytes)
include hpieces

theorem tqCmpAt_order {id : Int} (hid : T.Token id) (s : List UInt8) :
    tqCmpAt T blobBytes s (T.pieceStart id, T.pieceLen id) = .ok (T.order s id) := by
  have hn : (if s.length < T.pieceLen id then s.length else T.pieceLen id) ≤ T.pieceLen id := by
    split <;> omega
  unfold tqCmpAt
  dsimp only
  rw [blobRange_in (hpieces _ hid) hn]
  rfl

/-- **A search reads inside exactly if it comes to tokens only.** -/
theorem tqLookupLoop_exactly (s : List UInt8) :
    ∀ {fuel : Nat} {lo hi : Int}, 0 ≤ lo → hi < T.vocabSize →
    Exactly (tqLookupLoop T blobBytes s fuel lo hi)
      (∀ k ∈ Search.path (fun k => T.order s (T.entry k)) fuel lo hi, T.Token (T.entry k))
      ((Search.bsearch (fun k => T.order s (T.entry k)) fuel lo hi).elim (-1) T.entry) := by
  intro fuel
  induction fuel with
  | zero => exact fun _ _ => .ok fun _ h => absurd h List.not_mem_nil
  | succ fuel ih =>
      intro lo hi hlo hhi
      unfold tqLookupLoop Search.path Search.bsearch
      by_cases hle : lo ≤ hi
      · rw [if_pos hle, if_pos hle, if_pos hle]
        dsimp only
        have hmid : 0 ≤ lo + (hi - lo) / 2 ∧ lo + (hi - lo) / 2 < T.vocabSize := by omega
        have hlow := @ih lo (lo + (hi - lo) / 2 - 1) hlo (by omega)
        have hhigh := @ih (lo + (hi - lo) / 2 + 1) hi (by omega) hhi
        generalize lo + (hi - lo) / 2 = mid at hmid hlow hhigh
        have hread : indexAt T.vocabSize T.sorted mid = .ok (T.sorted mid.toNat) := if_pos hmid
        have hentry : toInt32 (T.sorted mid.toNat).toNat = T.entry mid := rfl
        rw [hread]
        dsimp only [bind, Except.bind]
        rw [hentry]
        by_cases htoken : T.Token (T.entry mid)
        · rw [tqPieceAt_token htoken]
          dsimp only
          rw [tqCmpAt_order hpieces htoken]
          dsimp only
          cases T.order s (T.entry mid) with
          | eq => exact .ok (List.forall_mem_singleton.mpr htoken)
          | lt => exact hlow.congr ⟨fun h => List.forall_mem_cons.mpr ⟨htoken, h⟩,
            fun h => (List.forall_mem_cons.mp h).2⟩
          | gt => exact hhigh.congr ⟨fun h => List.forall_mem_cons.mpr ⟨htoken, h⟩,
            fun h => (List.forall_mem_cons.mp h).2⟩
        · rw [tqPieceAt_out htoken]
          exact .out fun h => htoken (h mid List.mem_cons_self)
      · rw [if_neg hle, if_neg hle, if_neg hle]
        exact .ok fun _ h => absurd h List.not_mem_nil

theorem tqLookupAt_exactly (s : List UInt8) :
    Exactly (tqLookupAt T blobBytes s) (T.SearchIn s) (T.found s) :=
  tqLookupLoop_exactly hpieces s (Int.le_refl 0) (by omega)

end Search

/-! ## Merging -/

section Merge
variable {S : Type} (gt : S → S → Bool) (T : TqTokenizer S)

/-- What is searched for a pair; the length that `tq_lookup` gets is a `uint32_t`. -/
def TqTokenizer.joint (a b : Int) : List UInt8 :=
  (slice T.blob (T.pieceStart a) (T.pieceLen a) ++ slice T.blob (T.pieceStart b)
    (T.pieceLen b)).take ((T.pieceLen a + T.pieceLen b) % 2 ^ 32)

/-- The token that two tokens join to, with its score. -/
def TqTokenizer.join (a b : Int) : Option (S × Int) :=
  if T.pieceLen a + T.pieceLen b > T.bufBytes then none
  else if T.found (T.joint a b) ≥ 0 then
    some (T.scores (T.found (T.joint a b)).toNat, T.found (T.joint a b))
  else none

/-- Two tokens whose joint, if it fits the buffer, is searched inside. -/
def TqTokenizer.PairIn (a b : Int) : Prop :=
  T.Token a ∧ T.Token b ∧ (T.pieceLen a + T.pieceLen b ≤ T.bufBytes → T.SearchIn (T.joint a b))

/-- All neighbours are such tokens. -/
def TqTokenizer.PairsIn (tokens : List Int) : Prop :=
  ∀ k a b, tokens[k]? = some a → tokens[k + 1]? = some b → T.PairIn a b

variable {T} {blobBytes : Nat} (hpieces : T.PiecesIn blobBytes)
include hpieces

theorem tqBestStepAt_exactly {tokens : List Int} {k : Nat} {a b : Int} (ha : tokens[k]? = some a)
    (hb : tokens[k + 1]? = some b) (best : Option (S × Int × Nat)) :
    Exactly (tqBestStepAt gt T blobBytes tokens k best) (T.PairIn a b)
      ((pair T.join tokens k).elim best (challenge gt best)) := by
  have hpair : pair T.join tokens k = (T.join a b).map fun c => (c.1, c.2, k) := by
    unfold pair
    rw [ha, hb]
  have hgetA : tokens.getD k 0 = a := by rw [List.getD_eq_getElem?_getD, ha, Option.getD_some]
  have hgetB : tokens.getD (k + 1) 0 = b := by rw [List.getD_eq_getElem?_getD, hb, Option.getD_some]
  unfold tqBestStepAt
  rw [hpair, hgetA, hgetB]
  unfold TqTokenizer.PairIn TqTokenizer.join
  by_cases hA : T.Token a
  · by_cases hB : T.Token b
    · rw [tqPieceAt_token hA, tqPieceAt_token hB]
      dsimp only [bind, Except.bind]
      by_cases hbuf : T.pieceLen a + T.pieceLen b > T.bufBytes
      · rw [if_pos hbuf, if_pos hbuf]
        exact .ok ⟨hA, hB, fun h => absurd h (by omega)⟩
      · rw [if_neg hbuf, if_neg hbuf, blobRange_in (hpieces _ hA) (Nat.le_refl _),
          blobRange_in (hpieces _ hB) (Nat.le_refl _)]
        have hsearch := tqLookupAt_exactly hpieces (T.joint a b)
        refine ((hsearch.bind fun hin => ?_).congr (Q := T.SearchIn (T.joint a b) ∧
          True) Iff.rfl).congr ?_
        · by_cases hid : T.found (T.joint a b) ≥ 0
          · have htok := found_token hin hid
            have hread : indexAt T.vocabSize T.scores (T.found (T.joint a b)) =
                .ok (T.scores (T.found (T.joint a b)).toNat) := if_pos htok
            rw [if_pos hid, if_pos hid, hread]
            exact .ok trivial
          · rw [if_neg hid, if_neg hid]
            exact .ok trivial
        · exact ⟨fun h => ⟨hA, hB, fun _ => h.1⟩, fun h => ⟨h.2.2 (by omega), trivial⟩⟩
    · rw [tqPieceAt_token hA, tqPieceAt_out hB]
      exact .out fun h => hB h.2.1
  · rw [tqPieceAt_out hA]
    exact .out fun h => hA h.1

theorem tqBestMergeAt_exactly (tokens : List Int) :
    Exactly (tqBestMergeAt gt T blobBytes tokens) (T.PairsIn tokens) (best gt T.join tokens) := by
  have hstep : ∀ k < tokens.length - 1, ∀ found,
      Exactly (tqBestStepAt gt T blobBytes tokens k found)
      (∀ a b, tokens[k]? = some a → tokens[k + 1]? = some b → T.PairIn a b)
      ((pair T.join tokens k).elim found (challenge gt found)) := by
    intro k hk found
    have hnext : k + 1 < tokens.length := by omega
    have ha := List.getElem?_eq_getElem (Nat.lt_of_succ_lt hnext)
    have hb := List.getElem?_eq_getElem hnext
    refine (tqBestStepAt_exactly gt hpieces ha hb found).congr ⟨fun h a b ha' hb' => ?_,
      fun h => h _ _ ha hb⟩
    rw [← Option.some.inj (ha.symm.trans ha'), ← Option.some.inj (hb.symm.trans hb')]
    exact h
  refine (Exactly.forUp hstep).congr ⟨fun h k a b ha hb => h k ?_ a b ha hb, fun h k _ => h k⟩
  have hlt := (List.getElem?_eq_some_iff.mp hb).1
  omega

/-- **The merge loop**, with rounds enough. -/
theorem tqMergeAt_exactly : ∀ (n : Nat) {tokens : List Int}, tokens.length ≤ n →
    Exactly (tqMergeAt gt T blobBytes n tokens) (∀ i, T.PairsIn (rounds gt T.join i tokens))
      (rounds gt T.join n tokens) := by
  intro n
  induction n with
  | zero =>
      intro tokens hlen
      obtain rfl := List.eq_nil_of_length_eq_zero (Nat.le_zero.mp hlen)
      refine .ok fun i k a b ha _ => ?_
      rw [rounds_done gt T.join rfl] at ha
      cases ha
  | succ n ih =>
      intro tokens hlen
      have hbest := tqBestMergeAt_exactly gt hpieces tokens
      rw [tqMergeAt, rounds]
      cases hfound : best gt T.join tokens with
      | none =>
          rw [hfound] at hbest
          refine (hbest.bind (Q := True) (b := tokens) fun _ => ?_).congr ?_
          · exact .ok trivial
          · simp only [rounds_done gt T.join hfound, and_true, forall_const]
      | some c =>
          obtain ⟨s, id, k⟩ := c
          rw [hfound] at hbest
          have hshort := length_merge gt T.join hfound
          refine (hbest.bind fun _ => @ih (merge tokens k id) (by omega)).congr ⟨fun h i => ?_,
            fun h => ⟨h 0, fun i => ?_⟩⟩
          · cases i with
            | zero => exact h.1
            | succ i =>
                rw [rounds, hfound]
                exact h.2 i
          · have hlater := h (i + 1)
            rw [rounds, hfound] at hlater
            exact hlater

end Merge

/-! ## Texts -/

section Text
variable {S : Type} (gt : S → S → Bool) (T : TqTokenizer S)

/-- A run is searched for and, if it is not found, so are the names of its bytes. -/
def TqTokenizer.RunIn (run : List UInt8) : Prop :=
  T.SearchIn run ∧ (T.found run < 0 → ∀ c ∈ run, T.SearchIn (byteName c))

/-- The tokens of a text before any merge, behind BOS if it is asked for. -/
def TqTokenizer.start (addBos : Bool) (text : List UInt8) : List Int :=
  (if addBos then [T.bos] else []) ++ textTokens T.found text

theorem push_room {maxTokens : Nat} {tokens : List Int} (h : tokens.length < maxTokens) (v : Int) :
    ofStatus (tqPush maxTokens tokens v) = .ok (tokens ++ [v]) :=
  congrArg ofStatus (tqPush_ok _ h)

variable {T} {blobBytes maxTokens : Nat} (hpieces : T.PiecesIn blobBytes)
include hpieces

theorem byteFallback_exactly :
    ∀ (run : List UInt8) {tokens : List Int}, tokens.length + run.length ≤ maxTokens →
    Exactly (run.foldlM (fun tokens c => do
        let b ← tqByteTokenAt T blobBytes c
        if b ≥ 0 then ofStatus (tqPush maxTokens tokens b) else .ok tokens) tokens)
      (∀ c ∈ run, T.SearchIn (byteName c))
      (tokens ++ (run.map fun b => T.found (byteName b)).filter (· ≥ 0)) := by
  intro run
  induction run with
  | nil =>
      intro tokens _
      rw [List.map_nil, List.filter_nil, List.append_nil]
      exact .ok fun _ h => absurd h List.not_mem_nil
  | cons c run ih =>
      intro tokens hlen
      rw [List.length_cons] at hlen
      have hsearch := tqLookupAt_exactly hpieces (byteName c)
      rw [List.foldlM_cons, List.map_cons, List.filter_cons]
      refine Exactly.congr ?_ List.forall_mem_cons.symm
      by_cases hb : T.found (byteName c) ≥ 0
      · rw [if_pos (decide_eq_true hb)]
        have hnow : Exactly (tqByteTokenAt T blobBytes c >>= fun b =>
            if b ≥ 0 then ofStatus (tqPush maxTokens tokens b) else .ok tokens)
              (T.SearchIn (byteName c) ∧ True)
            (tokens ++ [T.found (byteName c)]) := hsearch.bind fun _ => by
          rw [if_pos hb, push_room (by omega)]
          exact .ok trivial
        have hrest :=
          @ih (tokens ++ [T.found (byteName c)])
          (by rw [List.length_append, List.length_singleton]; omega)
        rw [List.append_assoc, List.singleton_append] at hrest
        exact (hnow.congr (and_iff_left trivial)).bind fun _ => hrest
      · rw [if_neg (by simpa using hb)]
        have hnow : Exactly (tqByteTokenAt T blobBytes c >>= fun b =>
            if b ≥ 0 then ofStatus (tqPush maxTokens tokens b) else .ok tokens)
              (T.SearchIn (byteName c) ∧ True)
            tokens := hsearch.bind fun _ => by
          rw [if_neg hb]
          exact .ok trivial
        exact (hnow.congr (and_iff_left trivial)).bind fun _ => ih (by omega)

theorem tqEncodeRunAt_exactly {run : List UInt8} (hpos : 0 < run.length) {tokens : List Int}
    (hlen : tokens.length + run.length ≤ maxTokens) :
    Exactly (tqEncodeRunAt T blobBytes maxTokens tokens run) (T.RunIn run)
      (tokens ++ runTokens T.found run) := by
  have hsearch := tqLookupAt_exactly hpieces run
  unfold tqEncodeRunAt runTokens TqTokenizer.RunIn
  by_cases hid : T.found run ≥ 0
  · rw [if_pos hid]
    refine (hsearch.bind (Q := True) fun _ => ?_).congr
      ⟨fun h => ⟨h.1, fun hn => absurd hid (by omega)⟩, fun h => ⟨h.1, trivial⟩⟩
    rw [if_pos hid, push_room (by omega)]
    exact .ok trivial
  · rw [if_neg hid]
    refine (hsearch.bind fun _ => ?_).congr ⟨fun h => ⟨h.1, fun _ => h.2⟩,
      fun h => ⟨h.1, h.2 (by omega)⟩⟩
    rw [if_neg hid]
    exact byteFallback_exactly hpieces run hlen

theorem tqSplitAt_exactly :
    ∀ (k : Nat) {text : List UInt8} {tokens : List Int}, tokens.length + text.length ≤ maxTokens →
    Exactly (tqSplitAt T blobBytes maxTokens k text tokens) (∀ r ∈ runs k text, T.RunIn r)
      (tokens ++ (runs k text).flatMap (runTokens T.found)) := by
  intro k
  induction k with
  | zero =>
      intro text tokens _
      have hnil : tokens ++ (runs 0 text).flatMap (runTokens T.found) = tokens :=
        List.append_nil tokens
      rw [hnil]
      exact .ok fun _ h => absurd h List.not_mem_nil
  | succ k ih =>
      intro text tokens hlen
      cases text with
      | nil =>
          have hnil : tokens ++ (runs (k + 1) []).flatMap (runTokens T.found) = tokens :=
            List.append_nil tokens
          rw [hnil]
          exact .ok fun _ h => absurd h List.not_mem_nil
      | cons c text =>
          have hpos := runLen_pos c (text.length + 1)
          have hle := runLen_le c (Nat.succ_pos text.length)
          rw [List.length_cons] at hlen
          rw [runs, tqSplitAt, List.flatMap_cons]
          generalize runLen c (text.length + 1) = len at hpos hle ⊢
          have htake : ((c :: text).take len).length = len := by
            rw [List.length_take, List.length_cons]
            omega
          have hdrop : ((c :: text).drop len).length = text.length + 1 - len := List.length_drop
          have hpos : 0 < ((c :: text).take len).length := by omega
          have hrun := length_runTokens T.found hpos
          have hnow := @tqEncodeRunAt_exactly S T blobBytes maxTokens hpieces _ hpos
            tokens (by omega)
          have hrest :=
            @ih ((c :: text).drop len) (tokens ++ runTokens T.found ((c :: text).take len))
            (by rw [List.length_append]; omega)
          rw [List.append_assoc] at hrest
          exact (hnow.bind fun _ => hrest).congr List.forall_mem_cons.symm

theorem tqSpaceAt_exactly (text : List UInt8) {tokens : List Int}
    (hlen : tokens.length < maxTokens) :
    Exactly (tqSpaceAt T blobBytes maxTokens text tokens) (text ≠ [] → T.SearchIn (ascii " "))
      (tokens ++ if text ≠ [] ∧ T.found (ascii " ") ≥ 0 then [T.found (ascii " ")] else []) := by
  unfold tqSpaceAt
  by_cases htext : text = []
  · rw [if_pos htext, if_neg fun h => h.1 htext, List.append_nil]
    exact .ok fun h => absurd htext h
  · rw [if_neg htext]
    refine ((tqLookupAt_exactly hpieces (ascii " ")).bind (Q := True) fun _ => ?_).congr
      ⟨fun h _ => h.1, fun h => ⟨h htext, trivial⟩⟩
    by_cases hid : T.found (ascii " ") ≥ 0
    · rw [if_pos hid, if_pos ⟨htext, hid⟩, push_room hlen]
      exact .ok trivial
    · rw [if_neg hid, if_neg fun h => hid h.2, List.append_nil]
      exact .ok trivial

/-- What follows BOS. -/
theorem encodeRest_exactly {text : List UInt8} (hroom : text.length + 3 ≤ maxTokens) (addEos : Bool)
    {first start : List Int} (hlen : first.length ≤ 1)
    (hfirst : first ++ textTokens T.found text = start) :
    Exactly (do
        let tokens ← tqSpaceAt T blobBytes maxTokens text first
        let tokens ← tqSplitAt T blobBytes maxTokens text.length text tokens
        let tokens ← tqMergeAt gt T blobBytes tokens.length tokens
        if addEos then ofStatus (tqPush maxTokens tokens T.eos) else .ok tokens)
      ((text ≠ [] → T.SearchIn (ascii " ")) ∧ (∀ r ∈ runs text.length text, T.RunIn r) ∧
        ∀ i, T.PairsIn (rounds gt T.join i start))
      (rounds gt T.join start.length start ++ if addEos then [T.eos] else []) := by
  have hcount := length_runsTokens T.found text.length text
  have hstart : start =
      (first ++ if text ≠ [] ∧ T.found (ascii " ") ≥ 0 then [T.found (ascii " ")] else []) ++
        (runs text.length text).flatMap (runTokens T.found) := by
    rw [← hfirst, textTokens, List.append_assoc]
  have hspaced : (first ++ if text ≠ [] ∧
      T.found (ascii " ") ≥ 0 then [T.found (ascii " ")] else []).length ≤ 2 := by
    rw [List.length_append]
    split
    · rw [List.length_singleton]
      omega
    · rw [List.length_nil]
      omega
  have hshort := length_rounds_le gt T.join start.length start
  have hspace := @tqSpaceAt_exactly S T blobBytes maxTokens hpieces text first (by omega)
  have hsplit := @tqSplitAt_exactly S T blobBytes maxTokens hpieces text.length text _
    (Nat.le_trans (Nat.add_le_add_right hspaced _) (by omega))
  rw [← hstart] at hsplit
  have hmerge := tqMergeAt_exactly gt hpieces start.length (Nat.le_refl _)
  have heos : Exactly (if addEos then
      ofStatus (tqPush maxTokens (rounds gt T.join start.length start) T.eos)
      else .ok (rounds gt T.join start.length start)) True
      (rounds gt T.join start.length start ++ if addEos then [T.eos] else []) := by
    cases addEos with
    | true =>
        have hlong : start.length ≤ text.length + 2 := by
          rw [hstart, List.length_append]
          omega
        rw [if_pos rfl, if_pos rfl, push_room (by omega)]
        exact .ok trivial
    | false =>
        rw [if_neg Bool.false_ne_true, if_neg Bool.false_ne_true, List.append_nil]
        exact .ok trivial
  refine (hspace.bind fun _ => hsplit.bind fun _ => hmerge.bind fun _ => heos).congr ?_
  rw [and_true]

/-- **Encoding a text reads inside exactly if** the searches for the space and its
runs do, and in every round those for its neighbours. -/
theorem tqEncodeAt_exactly {text : List UInt8} (hroom : text.length + 3 ≤ maxTokens)
    (addBos addEos : Bool) :
    Exactly (tqEncodeAt gt T blobBytes text addBos addEos maxTokens)
      ((text ≠ [] → T.SearchIn (ascii " ")) ∧ (∀ r ∈ runs text.length text, T.RunIn r) ∧
        ∀ i, T.PairsIn (rounds gt T.join i (T.start addBos text)))
      (rounds gt T.join (T.start addBos text).length (T.start addBos text) ++
        if addEos then [T.eos] else []) := by
  have hrest : ∀ first : List Int, first.length ≤ 1 → first ++ textTokens T.found text =
      T.start addBos text →
      Exactly (do
        let tokens ← tqSpaceAt T blobBytes maxTokens text first
        let tokens ← tqSplitAt T blobBytes maxTokens text.length text tokens
        let tokens ← tqMergeAt gt T blobBytes tokens.length tokens
        if addEos then ofStatus (tqPush maxTokens tokens T.eos) else .ok tokens)
      ((text ≠ [] → T.SearchIn (ascii " ")) ∧ (∀ r ∈ runs text.length text, T.RunIn r) ∧
        ∀ i, T.PairsIn (rounds gt T.join i (T.start addBos text)))
      (rounds gt T.join (T.start addBos text).length (T.start addBos text) ++
        if addEos then [T.eos] else []) :=
    fun first hlen hfirst => encodeRest_exactly gt hpieces hroom addEos hlen hfirst
  unfold tqEncodeAt
  cases addBos with
  | true =>
      rw [if_pos rfl, push_room (by rw [List.length_nil]; omega), List.nil_append]
      exact hrest [T.bos] (Nat.le_refl 1) rfl
  | false =>
      rw [if_neg Bool.false_ne_true]
      exact hrest [] (Nat.zero_le 1) rfl

end Text

/-! ## A smaller buffer -/

/-- `x` is `y`, or stopped before it with a status. -/
def Stops {α : Type} (x y : Except TqStop α) : Prop := x = y ∨ ∃ rc, x = .error (.status rc)

section Stops
variable {α β : Type} {x y : Except TqStop α}

theorem Stops.bind {f g : α → Except TqStop β} (hx : Stops x y) (hf : ∀ a, Stops (f a) (g a)) :
    Stops (x >>= f) (y >>= g) := by
  rcases hx with rfl | ⟨rc, rfl⟩
  · cases x with
    | ok a => exact hf a
    | error e => exact .inl rfl
  · exact .inr ⟨rc, rfl⟩

theorem Stops.foldlM {γ : Type} {f g : α → γ → Except TqStop α} (h : ∀ a c, Stops (f a c) (g a c)) :
    ∀ (cs : List γ) (a : α), Stops (cs.foldlM f a) (cs.foldlM g a)
  | [], _ => .inl rfl
  | c :: cs, a => by
      rw [List.foldlM_cons, List.foldlM_cons]
      exact (h a c).bind fun b => Stops.foldlM h cs b

variable {S : Type} (gt : S → S → Bool) (T : TqTokenizer S) (blobBytes : Nat)
    {m n : Nat} (hmn : m ≤ n)
include hmn

theorem tqPush_stops (tokens : List Int) (v : Int) :
    Stops (ofStatus (tqPush m tokens v)) (ofStatus (tqPush n tokens v)) := by
  unfold tqPush
  by_cases hm : tokens.length ≥ m
  · rw [if_pos hm]
    exact .inr ⟨_, rfl⟩
  · rw [if_neg hm, if_neg (by omega)]
    exact .inl rfl

theorem found_stops (x : Except TqStop Int) (tokens : List Int) {y z : Except TqStop (List Int)}
    (h : Stops y z) :
    Stops (x >>= fun id => if id ≥ 0 then ofStatus (tqPush m tokens id) else y)
      (x >>= fun id => if id ≥ 0 then ofStatus (tqPush n tokens id) else z) := by
  refine Stops.bind (.inl rfl) fun id => ?_
  split
  · exact tqPush_stops hmn tokens id
  · exact h

theorem tqSplitAt_stops : ∀ (k : Nat) (text : List UInt8) (tokens : List Int),
    Stops (tqSplitAt T blobBytes m k text tokens) (tqSplitAt T blobBytes n k text tokens)
  | 0, _, _ => .inl rfl
  | _ + 1, [], _ => .inl rfl
  | k + 1, c :: text, tokens => by
      rw [tqSplitAt, tqSplitAt]
      refine Stops.bind ?_ fun tokens => tqSplitAt_stops k _ tokens
      exact found_stops hmn _ tokens
        (Stops.foldlM (fun tokens c => found_stops hmn _ tokens (.inl rfl)) _ tokens)

/-- **In a smaller buffer** a call stops earlier. -/
theorem tqEncodeAt_stops (text : List UInt8) (addBos addEos : Bool) :
    Stops (tqEncodeAt gt T blobBytes text addBos addEos m)
      (tqEncodeAt gt T blobBytes text addBos addEos n) := by
  have hrest : ∀ first : List Int, Stops
      (do
        let tokens ← tqSpaceAt T blobBytes m text first
        let tokens ← tqSplitAt T blobBytes m text.length text tokens
        let tokens ← tqMergeAt gt T blobBytes tokens.length tokens
        if addEos then ofStatus (tqPush m tokens T.eos) else .ok tokens)
      (do
        let tokens ← tqSpaceAt T blobBytes n text first
        let tokens ← tqSplitAt T blobBytes n text.length text tokens
        let tokens ← tqMergeAt gt T blobBytes tokens.length tokens
        if addEos then ofStatus (tqPush n tokens T.eos) else .ok tokens) := by
    intro first
    refine Stops.bind ?_ fun tokens => Stops.bind (tqSplitAt_stops T blobBytes hmn _ text tokens)
      fun tokens =>
      Stops.bind (.inl rfl) fun tokens => ?_
    · unfold tqSpaceAt
      split
      · exact .inl rfl
      · exact found_stops hmn _ first (.inl rfl)
    · split
      · exact tqPush_stops hmn tokens T.eos
      · exact .inl rfl
  unfold tqEncodeAt
  cases addBos with
  | true => exact Stops.bind (tqPush_stops hmn [] T.bos) hrest
  | false => exact hrest []

end Stops

end TinyLlm
