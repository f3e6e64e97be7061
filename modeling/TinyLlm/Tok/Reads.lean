/-
# `TinyLlm.Tok.Reads` — where the tokenizer reads

`tq_tokenizer_init` takes the four arrays of a vocabulary as they lie in the
file.  Here `tq_encode` and `tq_decode` are followed read by read: an index
outside its array stops the call (`TqStop.outside`), where the C would read
whatever lies there.

  offs      the entries 0 … vocab
  sorted    the entries 0 … vocab - 1, and so the scores
  blob      the bytes that the directory gives it

Tables are sound when the offsets cut pieces out of the blob and the order
names tokens.  On sound tables no read goes outside, and each call returns what
`TinyLlm.Tok.Encode` says (`tqEncodeAt_follows`, `tqDecodeAt_follows`).
-/
import TinyLlm.Tok.Encode
import TinyLlm.Tok.Init

namespace TinyLlm

open Loop Bytes

/-- Why a call stopped: it returned a status, or it read outside an array. -/
inductive TqStop where
  | status (rc : TqStatus)
  | outside
deriving DecidableEq, Repr

/-- A call that reads no array. -/
def ofStatus {α : Type} : Except TqStatus α → Except TqStop α
  | .ok a => .ok a
  | .error rc => .error (.status rc)

section Reads
variable {S : Type} (gt : S → S → Bool) (T : TqTokenizer S) (blobBytes : Nat)

/-! ## Reading -/

/-- `xs[i]`, of `n` elements. -/
def indexAt {α : Type} (n : Int) (xs : Nat → α) (i : Int) : Except TqStop α :=
  if 0 ≤ i ∧ i < n then .ok (xs i.toNat) else .error .outside

/-- One byte of the blob. -/
def blobAt (i : Nat) : Except TqStop UInt8 :=
  if i < blobBytes then .ok (T.blob.getD i 0) else .error .outside

/-- `n` bytes of the blob, for `memcmp` and `memcpy`; none are read when `n` is zero. -/
def blobRange (a n : Nat) : Except TqStop (List UInt8) :=
  if n = 0 ∨ a + n ≤ blobBytes then .ok (slice T.blob a n) else .error .outside

/-- `tq_piece`: where the piece of a token starts and how long it is. -/
def tqPieceAt (id : Int) : Except TqStop (Nat × Nat) := do
  let a ← indexAt (T.vocabSize + 1) T.offs id
  let b ← indexAt (T.vocabSize + 1) T.offs (id + 1)
  .ok (a.toNat, (b - a).toNat)

/-- `tq_cmp` with a piece: as many bytes are compared as both have. -/
def tqCmpAt (s : List UInt8) (p : Nat × Nat) : Except TqStop Ordering := do
  let n := if s.length < p.2 then s.length else p.2
  let q ← blobRange T blobBytes p.1 n
  let c := if n ≠ 0 then memcmp n s q else .eq
  .ok (if c ≠ .eq then c
    else if s.length = p.2 then .eq
    else if s.length < p.2 then .lt else .gt)

/-- `while (lo <= hi)`. -/
def tqLookupLoop (s : List UInt8) : Nat → Int → Int → Except TqStop Int
  | 0, _, _ => .ok (-1)
  | fuel + 1, lo, hi =>
      if lo ≤ hi then do
        let mid := lo + (hi - lo) / 2
        let id ← indexAt T.vocabSize T.sorted mid
        let p ← tqPieceAt T (toInt32 id.toNat)
        match ← tqCmpAt T blobBytes s p with
        | .eq => .ok (toInt32 id.toNat)
        | .lt => tqLookupLoop s fuel lo (mid - 1)
        | .gt => tqLookupLoop s fuel (mid + 1) hi
      else .ok (-1)

def tqLookupAt (s : List UInt8) : Except TqStop Int :=
  tqLookupLoop T blobBytes s T.vocabSize.toNat 0 (T.vocabSize - 1)

/-! ## Encoding -/

def tqByteTokenAt (b : UInt8) : Except TqStop Int := tqLookupAt T blobBytes (byteName b)

def tqEncodeRunAt (maxTokens : Nat) (tokens : List Int) (run : List UInt8) :
    Except TqStop (List Int) := do
  let id ← tqLookupAt T blobBytes run
  if id ≥ 0 then ofStatus (tqPush maxTokens tokens id)
  else run.foldlM (fun tokens c => do
    let b ← tqByteTokenAt T blobBytes c
    if b ≥ 0 then ofStatus (tqPush maxTokens tokens b) else .ok tokens) tokens

def tqSplitAt (maxTokens : Nat) : Nat → List UInt8 → List Int → Except TqStop (List Int)
  | k + 1, c :: text, tokens => do
      let len := runLen c (text.length + 1)
      let tokens ← tqEncodeRunAt T blobBytes maxTokens tokens ((c :: text).take len)
      tqSplitAt maxTokens k ((c :: text).drop len) tokens
  | _, _, tokens => .ok tokens

/-- The pair at `k`; the length that `tq_lookup` gets is a `uint32_t`. -/
def tqBestStepAt (tokens : List Int) (k : Nat) (best : Option (S × Int × Nat)) :
    Except TqStop (Option (S × Int × Nat)) := do
  let a ← tqPieceAt T (tokens.getD k 0)
  let b ← tqPieceAt T (tokens.getD (k + 1) 0)
  if a.2 + b.2 > T.bufBytes then .ok best
  else
    let x ← blobRange T blobBytes a.1 a.2
    let y ← blobRange T blobBytes b.1 b.2
    let id ← tqLookupAt T blobBytes ((x ++ y).take ((a.2 + b.2) % 2 ^ 32))
    if id ≥ 0 then
      let score ← indexAt T.vocabSize T.scores id
      .ok (if best.all (fun best => gt score best.1) = true then some (score, id, k) else best)
    else .ok best

def tqBestMergeAt (tokens : List Int) : Except TqStop (Option (S × Int × Nat)) :=
  forUpE (tqBestStepAt gt T blobBytes tokens) (tokens.length - 1) none

def tqMergeAt : Nat → List Int → Except TqStop (List Int)
  | 0, tokens => .ok tokens
  | n + 1, tokens => do
      match ← tqBestMergeAt gt T blobBytes tokens with
      | none => .ok tokens
      | some (_, id, k) => tqMergeAt n (mergeAt tokens k id)

/-- SentencePiece prepends a space to non-empty input. -/
def tqSpaceAt (maxTokens : Nat) (text : List UInt8) (tokens : List Int) :
    Except TqStop (List Int) :=
  if text = [] then .ok tokens
  else do
    let d ← tqLookupAt T blobBytes (ascii " ")
    if d ≥ 0 then ofStatus (tqPush maxTokens tokens d) else .ok tokens

def tqEncodeAt (text : List UInt8) (addBos addEos : Bool) (maxTokens : Nat) :
    Except TqStop (List Int) := do
  let tokens ← if addBos then ofStatus (tqPush maxTokens [] T.bos) else .ok []
  let tokens ← tqSpaceAt T blobBytes maxTokens text tokens
  let tokens ← tqSplitAt T blobBytes maxTokens text.length text tokens
  let tokens ← tqMergeAt gt T blobBytes tokens.length tokens
  if addEos then ofStatus (tqPush maxTokens tokens T.eos) else .ok tokens

/-! ## Decoding -/

/-- Is there a space to drop? -/
def tqBlankAt (prev : Int) (p : Nat × Nat) : Except TqStop Bool :=
  if prev = T.bos ∧ p.2 > 0 then do
    let c ← blobAt T blobBytes p.1
    .ok (decide (c = 0x20))
  else .ok false

/-- The byte that a piece `<0xHH>` stands for; a test is made if those before it held. -/
def tqByteOfAt (p : Nat × Nat) : Except TqStop (Option UInt8) :=
  if p.2 ≠ 6 then .ok none
  else do
    let c₀ ← blobAt T blobBytes p.1
    if c₀ ≠ 0x3C then .ok none
    else
      let c₁ ← blobAt T blobBytes (p.1 + 1)
      if c₁ ≠ 0x30 then .ok none
      else
        let c₂ ← blobAt T blobBytes (p.1 + 2)
        if c₂ ≠ 0x78 then .ok none
        else
          let c₅ ← blobAt T blobBytes (p.1 + 5)
          if c₅ ≠ 0x3E then .ok none
          else
            let c₃ ← blobAt T blobBytes (p.1 + 3)
            let c₄ ← blobAt T blobBytes (p.1 + 4)
            let hi := tqHexval c₃
            let lo := tqHexval c₄
            .ok (if hi ≥ 0 ∧ lo ≥ 0 then some (UInt8.ofNat (hi.toNat * 16 + lo.toNat)) else none)

def tqDecodeAt (prev token : Int) (outBytes : Nat) : Except TqStop (List UInt8) :=
  if token < 0 ∨ token ≥ T.vocabSize ∨ outBytes < 2 then .error (.status .errRange)
  else do
    let p ← tqPieceAt T token
    let blank ← tqBlankAt T blobBytes prev p
    let p := if blank then (p.1 + 1, p.2 - 1) else p
    match ← tqByteOfAt T blobBytes p with
    | some b => .ok [b]
    | none => blobRange T blobBytes p.1 (if p.2 + 1 > outBytes then outBytes - 1 else p.2)

end Reads

/-! ## Following -/

/-- `x` reads inside, ends in `P`, and under `W` returns what `y` does. -/
structure Follows {α : Type} (W : Prop) (x : Except TqStop α) (y : Except TqStatus α)
    (P : α → Prop) : Prop where
  inside : x ≠ .error .outside
  post : ∀ a, x = .ok a → P a
  same : W → x = ofStatus y

section Follows
variable {α β : Type} {W : Prop} {x : Except TqStop α} {y y' : Except TqStatus α} {P : α → Prop}
    {Q : β → Prop}

theorem Follows.ok {a b : α} (h : P a) (hab : W → a = b) : Follows W (.ok a) (.ok b) P := by
  refine ⟨fun h => (by cases h), fun c hc => ?_, fun hw => congrArg _ (hab hw)⟩
  cases hc
  exact h

theorem Follows.status (h : ∀ a, y = .ok a → P a) : Follows W (ofStatus y) y P := by
  cases y with
  | ok a => exact .ok (h a rfl) fun _ => rfl
  | error rc => exact ⟨fun h => (by cases h), fun _ h => (by cases h), fun _ => rfl⟩

theorem Follows.congr (h : Follows W x y P) (hy : W → y = y') : Follows W x y' P :=
  ⟨h.inside, h.post, fun hw => hy hw ▸ h.same hw⟩

theorem Follows.bind {f : α → Except TqStop β} {g : α → Except TqStatus β} (hx : Follows W x y P)
    (hf : ∀ a, P a → Follows W (f a) (g a) Q) : Follows W (x >>= f) (y >>= g) Q := by
  cases x with
  | ok a =>
      refine (hf a (hx.post a rfl)).congr fun hw => ?_
      have hsame := hx.same hw
      cases y with
      | ok b =>
          cases hsame
          rfl
      | error rc => cases hsame
  | error e =>
      refine ⟨fun h => hx.inside (congrArg _ (Except.error.inj h)),
        fun _ h => (by cases h), fun hw => ?_⟩
      have hsame := hx.same hw
      cases y with
      | ok b => cases hsame
      | error rc =>
          cases hsame
          rfl

/-- A value that the other side has at hand. -/
theorem Follows.bind_value {b : α} {f : α → Except TqStop β} {z : Except TqStatus β}
    (hx : Follows W x (.ok b) P) (hf : ∀ a, P a → (W → a = b) → Follows W (f a) z Q) :
    Follows W (x >>= f) z Q := by
  cases x with
  | ok a => exact hf a (hx.post a rfl) fun hw => Except.ok.inj (hx.same hw)
  | error e =>
      refine ⟨fun h => hx.inside (congrArg _ (Except.error.inj h)),
        fun _ h => (by cases h), fun hw => ?_⟩
      cases hx.same hw

theorem Follows.foldlM {γ : Type} {f : α → γ → Except TqStop α} {g : α → γ → Except TqStatus α}
    (hstep : ∀ a c, P a → Follows W (f a c) (g a c) P) :
    ∀ (cs : List γ) {a : α}, P a → Follows W (cs.foldlM f a) (cs.foldlM g a) P
  | [], _, ha => .ok ha fun _ => rfl
  | c :: cs, _, ha => by
      rw [List.foldlM_cons, List.foldlM_cons]
      exact (hstep _ c ha).bind fun _ hb => Follows.foldlM hstep cs hb

theorem Follows.forUp {f : Nat → α → Except TqStop α} {g : Nat → α → α} {I : Nat → α → Prop} {a : α}
    (h₀ : I 0 a) :
    ∀ {n : Nat}, (∀ i < n, ∀ a, I i a → Follows W (f i a) (.ok (g i a)) (I (i + 1))) →
      Follows W (forUpE f n a) (.ok (Loop.forUp n g a)) (I n)
  | 0, _ => .ok h₀ fun _ => rfl
  | n + 1, hstep => by
      have ih := Follows.forUp h₀ fun i hi => hstep i (Nat.lt_succ_of_lt hi)
      refine ih.bind_value fun b hb hsame => (hstep n (Nat.lt_succ_self n) b hb).congr fun hw => ?_
      rw [hsame hw]
      rfl

end Follows

/-! ## Sound tables -/

section Sound
variable {S : Type} (gt : S → S → Bool) (T : TqTokenizer S) (blobBytes : Nat)

def TqTokenizer.pieceStart (id : Int) : Nat := (T.offs id.toNat).toNat

def TqTokenizer.pieceLen (id : Int) : Nat := (T.offs (id.toNat + 1) - T.offs id.toNat).toNat

/-- A token of the vocabulary. -/
def TqTokenizer.Token (id : Int) : Prop := 0 ≤ id ∧ id < T.vocabSize

/-- The bytes from `a` to `a + n` lie in the blob, if there are any. -/
def InBlob (blobBytes a n : Nat) : Prop := n = 0 ∨ a + n ≤ blobBytes

/-- What the offsets cut out lies in the blob. -/
def TqTokenizer.PiecesIn : Prop :=
  ∀ id, T.Token id → InBlob blobBytes (T.pieceStart id) (T.pieceLen id)

/-- The order lists tokens. -/
def TqTokenizer.OrderIn : Prop := ∀ k : Nat, (k : Int) < T.vocabSize → T.Token (T.sorted k).toNat

/-- The blob is all there, and lengths of joined pieces have 32 bits. -/
def TqTokenizer.Whole : Prop := blobBytes ≤ T.blob.length ∧ T.bufBytes < 2 ^ 32

variable {T blobBytes}

theorem tqPieceAt_token {id : Int} (h : T.Token id) :
    tqPieceAt T id = .ok (T.pieceStart id, T.pieceLen id) := by
  obtain ⟨h₁, h₂⟩ := h
  have hnext : (id + 1).toNat = id.toNat + 1 := by omega
  unfold tqPieceAt indexAt
  rw [if_pos ⟨h₁, by omega⟩, if_pos ⟨by omega, by omega⟩, hnext]
  rfl

section Windows
variable {a n : Nat} (hin : InBlob blobBytes a n)
include hin

theorem blobRange_in {k : Nat} (hk : k ≤ n) :
    blobRange T blobBytes a k = .ok (slice T.blob a k) := by
  refine if_pos ?_
  rcases hin with h | h
  · exact .inl (by omega)
  · exact .inr (by omega)

theorem blobAt_in {i : Nat} (hi : i < n) :
    blobAt T blobBytes (a + i) = .ok (T.blob.getD (a + i) 0) := by
  refine if_pos ?_
  rcases hin with h | h
  · exact absurd hi (by omega)
  · omega

theorem length_slice_in (hwhole : T.Whole blobBytes) : (slice T.blob a n).length = n := by
  rcases hin with rfl | h
  · rfl
  · exact length_slice (h.trans hwhole.1)

end Windows

theorem length_tqPiece (hpieces : T.PiecesIn blobBytes) {id : Int} (hid : T.Token id)
    (hwhole : T.Whole blobBytes) : (tqPiece T id).length = T.pieceLen id :=
  length_slice_in (hpieces id hid) hwhole

theorem memcmp_take : ∀ (n : Nat) (a b : List UInt8), memcmp n a (b.take n) = memcmp n a b
  | 0, _, _ => rfl
  | _ + 1, [], _ => rfl
  | _ + 1, _ :: _, [] => rfl
  | n + 1, x :: a, y :: b => by
      rw [List.take_succ_cons, memcmp_cons, memcmp_cons, memcmp_take n a b]

theorem tqCmpAt_piece (hpieces : T.PiecesIn blobBytes) {id : Int} (hid : T.Token id)
    (s : List UInt8) :
    ∃ c, tqCmpAt T blobBytes s (T.pieceStart id, T.pieceLen id) = .ok c ∧
      (T.Whole blobBytes → c = tqCmp s (tqPiece T id)) := by
  unfold tqCmpAt
  dsimp only
  have hn : (if s.length < T.pieceLen id then s.length else T.pieceLen id) ≤ T.pieceLen id := by
    split <;> omega
  rw [blobRange_in (hpieces _ hid) hn]
  refine ⟨_, rfl, fun hwhole => ?_⟩
  have htake : slice T.blob (T.pieceStart id) (if s.length <
      T.pieceLen id then s.length else T.pieceLen id) =
      (tqPiece T id).take (if s.length < T.pieceLen id then s.length else T.pieceLen id) := by
    show _ = (slice T.blob (T.pieceStart id) (T.pieceLen id)).take _
    rw [slice, slice, List.take_take, Nat.min_eq_left hn]
  unfold tqCmp
  rw [length_tqPiece hpieces hid hwhole, htake, memcmp_take]

theorem toInt32_token (hsize : T.vocabSize < 2 ^ 31) {v : UInt32} (h : T.Token v.toNat) :
    toInt32 v.toNat = v.toNat := by
  have hlt := h.2
  exact if_pos (by omega)

/-- **The search** keeps to the tables. -/
theorem tqLookupLoop_follows (hsize : T.vocabSize < 2 ^ 31) (hpieces : T.PiecesIn blobBytes)
    (horder : T.OrderIn) (s : List UInt8) :
    ∀ {fuel : Nat} {lo hi : Int}, 0 ≤ lo → hi < T.vocabSize →
      Follows (T.Whole blobBytes) (tqLookupLoop T blobBytes s fuel lo hi)
        (.ok ((Search.bsearch (fun mid => tqCmp s (tqPiece T (T.sorted mid.toNat).toNat)) fuel
        lo hi).elim (-1)
          fun mid => (T.sorted mid.toNat).toNat)) fun id => 0 ≤ id → T.Token id := by
  have hnone : Follows (T.Whole blobBytes) (.ok (-1)) (.ok (-1)) fun id => 0 ≤ id → T.Token id :=
    .ok (fun h => absurd h (by decide)) fun _ => rfl
  intro fuel
  induction fuel with
  | zero => exact fun _ _ => hnone
  | succ fuel ih =>
      intro lo hi hlo hhi
      unfold tqLookupLoop Search.bsearch
      by_cases hle : lo ≤ hi
      · rw [if_pos hle, if_pos hle]
        dsimp only
        have hmid : 0 ≤ lo + (hi - lo) / 2 ∧ lo + (hi - lo) / 2 < T.vocabSize := by omega
        have htoken : T.Token (T.sorted (lo + (hi - lo) / 2).toNat).toNat := horder _ (by omega)
        obtain ⟨c, hc, hsame⟩ := tqCmpAt_piece hpieces htoken s
        have hread : indexAt T.vocabSize T.sorted (lo + (hi - lo) / 2) =
            .ok (T.sorted (lo + (hi - lo) / 2).toNat) :=
          if_pos hmid
        generalize lo + (hi - lo) / 2 = mid at hmid htoken hc hsame hread
        rw [hread]
        dsimp only [bind, Except.bind]
        rw [toInt32_token hsize htoken, tqPieceAt_token htoken]
        dsimp only
        rw [hc]
        dsimp only
        cases c with
        | eq =>
            refine .ok (fun _ => htoken) fun hwhole => ?_
            rw [← hsame hwhole]
            rfl
        | lt =>
            refine (ih hlo (by omega)).congr fun hwhole => ?_
            rw [← hsame hwhole]
        | gt =>
            refine (ih (by omega) hhi).congr fun hwhole => ?_
            rw [← hsame hwhole]
      · rw [if_neg hle, if_neg hle]
        exact hnone

section Encode
variable {maxTokens : Nat}

theorem tqPush_follows {W : Prop} {tokens : List Int} {v : Int} (htokens : ∀ t ∈ tokens, T.Token t)
    (hv : T.Token v) :
    Follows W (ofStatus (tqPush maxTokens tokens v)) (tqPush maxTokens tokens v)
      fun r => ∀ t ∈ r, T.Token t := by
  refine .status fun r hr t ht => ?_
  unfold tqPush at hr
  split at hr
  · cases hr
  · cases hr
    rcases List.mem_append.mp ht with ht | ht
    · exact htokens t ht
    · rw [List.mem_singleton.mp ht]
      exact hv

variable (hsize : T.vocabSize < 2 ^ 31) (hpieces : T.PiecesIn blobBytes) (horder : T.OrderIn)
include hsize hpieces horder

theorem tqLookupAt_follows (s : List UInt8) :
    Follows (T.Whole blobBytes) (tqLookupAt T blobBytes s) (.ok (tqLookup T s)) fun id => 0 ≤ id →
      T.Token id := by
  have hloop := @tqLookupLoop_follows S T blobBytes hsize hpieces horder s T.vocabSize.toNat 0
    (T.vocabSize - 1) (Int.le_refl 0) (by omega)
  refine hloop.congr fun _ => congrArg _ ?_
  unfold tqLookup
  split
  · next h => rw [h]; rfl
  · next h => rw [h]; rfl

/-- What is found is pushed. -/
theorem tqLookupAt_push {tokens : List Int} (htokens : ∀ t ∈ tokens, T.Token t) (s : List UInt8)
    {x : Except TqStop (List Int)} {y : Except TqStatus (List Int)}
    (hrest : Follows (T.Whole blobBytes) x y fun r => ∀ t ∈ r, T.Token t) :
    Follows (T.Whole blobBytes)
      (tqLookupAt T blobBytes s >>=
      fun id => if id ≥ 0 then ofStatus (tqPush maxTokens tokens id) else x)
      (if tqLookup T s ≥ 0 then tqPush maxTokens tokens (tqLookup T s) else y)
        fun r => ∀ t ∈ r, T.Token t := by
  refine (tqLookupAt_follows hsize hpieces horder s).bind_value fun id hid hsame => ?_
  by_cases hfound : id ≥ 0
  · rw [if_pos hfound]
    refine (tqPush_follows htokens (hid hfound)).congr fun hwhole => ?_
    obtain rfl := hsame hwhole
    rw [if_pos hfound]
  · rw [if_neg hfound]
    refine hrest.congr fun hwhole => ?_
    obtain rfl := hsame hwhole
    rw [if_neg hfound]

theorem tqEncodeRunAt_follows {tokens : List Int} (htokens : ∀ t ∈ tokens, T.Token t)
    (run : List UInt8) :
    Follows (T.Whole blobBytes) (tqEncodeRunAt T blobBytes maxTokens tokens run)
      (tqEncodeRun T maxTokens tokens run) fun r => ∀ t ∈ r, T.Token t :=
  tqLookupAt_push hsize hpieces horder htokens run <|
    Follows.foldlM (fun _ c htokens => tqLookupAt_push hsize hpieces horder htokens (byteName c)
      (.ok htokens fun _ => rfl)) run htokens

theorem tqSplitAt_follows :
    ∀ {k : Nat} {text : List UInt8} {tokens : List Int}, (∀ t ∈ tokens, T.Token t) →
    Follows (T.Whole blobBytes) (tqSplitAt T blobBytes maxTokens k text tokens)
      (tqSplit T maxTokens k text tokens)
      fun r => ∀ t ∈ r, T.Token t
  | 0, _, _, htokens => .ok htokens fun _ => rfl
  | _ + 1, [], _, htokens => .ok htokens fun _ => rfl
  | _ + 1, c :: text, _, htokens =>
      (tqEncodeRunAt_follows hsize hpieces horder htokens
        ((c :: text).take (runLen c (text.length + 1)))).bind fun _ hr => tqSplitAt_follows hr

/-- What the inner loop keeps: its choice is a token, for a pair before `i`. -/
def BestIn (T : TqTokenizer S) (i : Nat) (best : Option (S × Int × Nat)) : Prop :=
  ∀ score id k, best = some (score, id, k) → T.Token id ∧ k < i

theorem tqBestStepAt_follows {tokens : List Int} (htokens : ∀ t ∈ tokens, T.Token t) {k : Nat}
    (hk : k < tokens.length - 1) {best : Option (S × Int × Nat)} (hbest : BestIn T k best) :
    Follows (T.Whole blobBytes) (tqBestStepAt gt T blobBytes tokens k best)
      (.ok (tqBestStep gt T tokens k best))
      (BestIn T (k + 1)) := by
  have hold : BestIn T (k + 1) best := fun score id j h =>
    ⟨(hbest score id j h).1, Nat.lt_succ_of_lt (hbest score id j h).2⟩
  have htoken : ∀ i < tokens.length, T.Token (tokens.getD i 0) := fun i hi => by
    rw [List.getD_eq_getElem _ _ hi]
    exact htokens _ (List.getElem_mem hi)
  have ha := htoken k (by omega)
  have hb := htoken (k + 1) (by omega)
  unfold tqBestStepAt
  rw [tqPieceAt_token ha, tqPieceAt_token hb]
  dsimp only [bind, Except.bind]
  have hlen : T.Whole blobBytes →
      (tqPiece T (tokens.getD k 0)).length + (tqPiece T (tokens.getD (k + 1) 0)).length =
      T.pieceLen (tokens.getD k 0) + T.pieceLen (tokens.getD (k + 1) 0) := fun hwhole => by
    rw [length_tqPiece hpieces ha hwhole, length_tqPiece hpieces hb hwhole]
  by_cases hbuf : T.pieceLen (tokens.getD k 0) + T.pieceLen (tokens.getD (k + 1) 0) > T.bufBytes
  · rw [if_pos hbuf]
    refine .ok hold fun hwhole => ?_
    unfold tqBestStep
    dsimp only
    rw [hlen hwhole, if_pos hbuf]
  · rw [if_neg hbuf, blobRange_in (hpieces _ ha) (Nat.le_refl _),
      blobRange_in (hpieces _ hb) (Nat.le_refl _)]
    refine (tqLookupAt_follows hsize hpieces horder _).bind_value fun id hid hsame => ?_
    -- the two pieces fit the buffer, so their length has 32 bits
    have hjoin : T.Whole blobBytes →
        id = tqLookup T (tqPiece T (tokens.getD k 0) ++
          tqPiece T (tokens.getD (k + 1) 0)) := fun hwhole => by
      have hlt : T.pieceLen (tokens.getD k 0) + T.pieceLen (tokens.getD (k + 1) 0) < 2 ^ 32 := by
        have hbits := hwhole.2
        omega
      rw [hsame hwhole, Nat.mod_eq_of_lt hlt, ← hlen hwhole, ← List.length_append]
      exact congrArg _ List.take_length
    by_cases hfound : id ≥ 0
    · have htok := hid hfound
      have hread : indexAt T.vocabSize T.scores id = .ok (T.scores id.toNat) := if_pos htok
      rw [if_pos hfound, hread]
      refine .ok ?_ fun hwhole => ?_
      · intro score id' j h
        split at h
        · cases h
          exact ⟨htok, Nat.lt_succ_self k⟩
        · exact hold score id' j h
      · unfold tqBestStep
        dsimp only
        rw [hlen hwhole, if_neg hbuf, ← hjoin hwhole]
        simp only [hfound, true_and]
    · rw [if_neg hfound]
      refine .ok hold fun hwhole => ?_
      unfold tqBestStep
      dsimp only
      rw [hlen hwhole, if_neg hbuf, ← hjoin hwhole, if_neg fun h => hfound h.1]

theorem tqBestMergeAt_follows {tokens : List Int} (htokens : ∀ t ∈ tokens, T.Token t) :
    Follows (T.Whole blobBytes) (tqBestMergeAt gt T blobBytes tokens)
      (.ok (tqBestMerge gt T tokens))
      (BestIn T (tokens.length - 1)) :=
  .forUp (fun _ _ _ h => by cases h) fun _ hk _ hbest =>
    tqBestStepAt_follows gt hsize hpieces horder htokens hk hbest

theorem tqMergeAt_follows : ∀ {n : Nat} {tokens : List Int}, (∀ t ∈ tokens, T.Token t) →
    Follows (T.Whole blobBytes) (tqMergeAt gt T blobBytes n tokens) (.ok (tqMerge gt T n tokens))
      fun r => ∀ t ∈ r, T.Token t
  | 0, _, htokens => .ok htokens fun _ => rfl
  | n + 1, tokens, htokens => by
      refine (tqBestMergeAt_follows gt hsize hpieces horder htokens).bind_value
        fun best hbest hsame => ?_
      cases best with
      | none =>
          refine .ok htokens fun hwhole => ?_
          rw [tqMerge, ← hsame hwhole]
      | some best =>
          obtain ⟨score, id, k⟩ := best
          have hmerged : ∀ t ∈ mergeAt tokens k id, T.Token t := fun t ht => by
            rcases List.mem_append.mp ht with ht | ht
            · exact htokens t (List.mem_of_mem_take ht)
            · rcases List.mem_cons.mp ht with rfl | ht
              · exact (hbest score t k rfl).1
              · exact htokens t (List.mem_of_mem_drop ht)
          refine (tqMergeAt_follows hmerged).congr fun hwhole => ?_
          rw [tqMerge, ← hsame hwhole]

theorem tqSpaceAt_follows (text : List UInt8) {tokens : List Int}
    (htokens : ∀ t ∈ tokens, T.Token t) :
    Follows (T.Whole blobBytes) (tqSpaceAt T blobBytes maxTokens text tokens)
      (if text ≠ [] ∧
      tqLookup T (ascii " ") ≥ 0 then tqPush maxTokens tokens (tqLookup T (ascii " "))
        else .ok tokens) fun r => ∀ t ∈ r, T.Token t := by
  unfold tqSpaceAt
  by_cases htext : text = []
  · rw [if_pos htext, if_neg fun h => h.1 htext]
    exact .ok htokens fun _ => rfl
  · rw [if_neg htext]
    refine (tqLookupAt_push hsize hpieces horder htokens (ascii " ") (.ok htokens
      fun _ => rfl)).congr fun _ => ?_
    simp only [ne_eq, htext, not_false_eq_true, true_and]

/-- **Encoding** reads inside sound tables, and returns what `tqEncode` does. -/
theorem tqEncodeAt_follows (text : List UInt8) {addBos : Bool} (addEos : Bool)
    (hbos : addBos = true → T.Token T.bos) :
    Follows (T.Whole blobBytes) (tqEncodeAt gt T blobBytes text addBos addEos maxTokens)
      (tqEncode gt T text addBos addEos maxTokens) fun _ => True := by
  have hrest : ∀ tokens, (∀ t ∈ tokens, T.Token t) → Follows (T.Whole blobBytes)
      (do
        let tokens ← tqSplitAt T blobBytes maxTokens text.length text tokens
        let tokens ← tqMergeAt gt T blobBytes tokens.length tokens
        if addEos then ofStatus (tqPush maxTokens tokens T.eos) else .ok tokens)
      (do
        let tokens ← tqSplit T maxTokens text.length text tokens
        let tokens := tqMerge gt T tokens.length tokens
        if addEos then tqPush maxTokens tokens T.eos else .ok tokens)
      fun _ => True := fun tokens htokens => by
    refine (tqSplitAt_follows hsize hpieces horder htokens).bind fun tokens htokens => ?_
    refine (tqMergeAt_follows gt hsize hpieces horder htokens).bind_value fun merged _ hsame => ?_
    cases addEos with
    | false => exact .ok trivial hsame
    | true =>
        exact (Follows.status fun _ _ => trivial).congr fun hwhole => by
          rw [hsame hwhole]
          rfl
  have hspace : ∀ tokens, (∀ t ∈ tokens, T.Token t) → Follows (T.Whole blobBytes)
      (do
        let tokens ← tqSpaceAt T blobBytes maxTokens text tokens
        let tokens ← tqSplitAt T blobBytes maxTokens text.length text tokens
        let tokens ← tqMergeAt gt T blobBytes tokens.length tokens
        if addEos then ofStatus (tqPush maxTokens tokens T.eos) else .ok tokens)
      (do
        let tokens ← if text ≠ [] ∧ tqLookup T (ascii " ") ≥ 0 then
          tqPush maxTokens tokens (tqLookup T (ascii " ")) else .ok tokens
        let tokens ← tqSplit T maxTokens text.length text tokens
        let tokens := tqMerge gt T tokens.length tokens
        if addEos then tqPush maxTokens tokens T.eos else .ok tokens)
      fun _ => True := fun tokens htokens =>
    ((tqSpaceAt_follows hsize hpieces horder text htokens).bind hrest).congr fun _ => by
      split <;> rfl
  cases addBos with
  | false => exact hspace [] fun t ht => absurd ht List.not_mem_nil
  | true => exact (tqPush_follows (fun t ht => absurd ht List.not_mem_nil) (hbos rfl)).bind hspace

end Encode

section Decode
variable {a n : Nat} (hin : InBlob blobBytes a n)
include hin

theorem tqByteOfAt_follows : Follows (T.Whole blobBytes) (tqByteOfAt T blobBytes (a, n))
    (.ok (byteOf (slice T.blob a n))) fun _ => True := by
  have hnone : (T.Whole blobBytes → byteOf (slice T.blob a n) = none) →
      Follows (T.Whole blobBytes) (.ok none) (.ok (byteOf (slice T.blob a n)))
        fun _ => True := fun h =>
    .ok trivial fun hwhole => (h hwhole).symm
  unfold tqByteOfAt
  dsimp only
  by_cases hn : n = 6
  · subst hn
    have hread : ∀ i < 6, blobAt T blobBytes (a + i) = .ok ((slice T.blob a 6).getD i 0) :=
      fun i hi => by
      rw [blobAt_in hin hi, getD_slice hi]
    have hread₀ := hread 0 (by decide)
    rw [Nat.add_zero] at hread₀
    have hlen := length_slice_in (T := T) hin
    rw [if_neg (not_not_intro rfl), hread₀, hread 1 (by decide), hread 2 (by decide),
      hread 3 (by decide), hread 4 (by decide), hread 5 (by decide)]
    dsimp only [bind, Except.bind]
    generalize slice T.blob a 6 = p at hnone hlen
    by_cases h₀ : p.getD 0 0 = 0x3C
    · rw [if_neg (not_not_intro h₀)]
      by_cases h₁ : p.getD 1 0 = 0x30
      · rw [if_neg (not_not_intro h₁)]
        by_cases h₂ : p.getD 2 0 = 0x78
        · rw [if_neg (not_not_intro h₂)]
          by_cases h₅ : p.getD 5 0 = 0x3E
          · rw [if_neg (not_not_intro h₅)]
            refine .ok trivial fun hwhole => ?_
            exact (if_pos ⟨hlen hwhole, h₀, h₁, h₂, h₅⟩).symm
          · rw [if_pos h₅]
            exact hnone fun _ => if_neg fun h => h₅ h.2.2.2.2
        · rw [if_pos h₂]
          exact hnone fun _ => if_neg fun h => h₂ h.2.2.2.1
      · rw [if_pos h₁]
        exact hnone fun _ => if_neg fun h => h₁ h.2.2.1
    · rw [if_pos h₀]
      exact hnone fun _ => if_neg fun h => h₀ h.2.1
  · rw [if_pos hn]
    exact hnone fun hwhole => if_neg fun h => hn ((length_slice_in hin hwhole).symm.trans h.1)

theorem tqBlankAt_follows (prev : Int) :
    Follows (T.Whole blobBytes) (tqBlankAt T blobBytes prev (a, n))
    (.ok (decide (prev = T.bos ∧ (slice T.blob a n).length > 0 ∧
      (slice T.blob a n).getD 0 0 = 0x20)))
    fun blank => blank = true → 0 < n := by
  unfold tqBlankAt
  dsimp only
  by_cases hprev : prev = T.bos ∧ n > 0
  · have hread : blobAt T blobBytes a = .ok ((slice T.blob a n).getD 0 0) := by
      rw [getD_slice hprev.2]
      exact blobAt_in hin hprev.2
    rw [if_pos hprev, hread]
    refine .ok (fun _ => hprev.2) fun hwhole => ?_
    rw [length_slice_in hin hwhole]
    simp only [hprev, true_and]
  · rw [if_neg hprev]
    refine .ok (fun h => absurd h Bool.false_ne_true) fun hwhole => ?_
    rw [length_slice_in hin hwhole]
    exact (decide_eq_false fun h => hprev ⟨h.1, h.2.1⟩).symm

end Decode

/-- **Decoding** reads inside the pieces, and returns what `tqDecode` does. -/
theorem tqDecodeAt_follows (hpieces : T.PiecesIn blobBytes) (prev token : Int) (outBytes : Nat) :
    Follows (T.Whole blobBytes) (tqDecodeAt T blobBytes prev token outBytes)
      (tqDecode T prev token outBytes)
      fun _ => True := by
  unfold tqDecodeAt tqDecode
  by_cases hrange : token < 0 ∨ token ≥ T.vocabSize ∨ outBytes < 2
  · rw [if_pos hrange, if_pos hrange]
    exact Follows.status (y := .error .errRange) fun _ h => by cases h
  · rw [if_neg hrange, if_neg hrange]
    have htoken : T.Token token := ⟨by omega, by omega⟩
    have hin := hpieces token htoken
    rw [tqPieceAt_token htoken]
    refine (tqBlankAt_follows hin prev).bind_value fun blank hblank hsame => ?_
    have hpiece : tqPiece T token = slice T.blob (T.pieceStart token) (T.pieceLen token) := rfl
    rw [← hpiece] at hsame
    -- the piece, or what is left of it without the space
    obtain ⟨a, n, hin, hp, hq⟩ : ∃ a n, InBlob blobBytes a n ∧
        (if blank = true then (T.pieceStart token + 1, T.pieceLen token - 1)
          else (T.pieceStart token, T.pieceLen token)) = (a, n) ∧
        (T.Whole blobBytes →
          (if prev = T.bos ∧ (tqPiece T token).length > 0 ∧ (tqPiece T token).getD 0 0 =
          0x20 then (tqPiece T token).drop 1 else tqPiece T token) = slice T.blob a n) := by
      cases blank with
      | false =>
        exact ⟨_, _, hin, rfl, fun hwhole => if_neg (of_decide_eq_false (hsame hwhole).symm)⟩
      | true =>
          have hpos := hblank rfl
          refine ⟨_, _, ?_, rfl, fun hwhole => ?_⟩
          · rcases hin with h | h
            · exact absurd hpos (by omega)
            · exact .inr (by omega)
          · rw [if_pos (of_decide_eq_true (hsame hwhole).symm), hpiece, slice, slice,
              List.drop_take, List.drop_drop]
    dsimp only
    rw [hp]
    refine (tqByteOfAt_follows hin).bind_value fun byte _ hbyte => ?_
    cases byte with
    | some b =>
        refine .congr (.ok trivial fun _ => rfl) fun hwhole => ?_
        rw [hq hwhole, ← hbyte hwhole]
    | none =>
        have hle : (if n + 1 > outBytes then outBytes - 1 else n) ≤ n := by
          split <;> omega
        dsimp only
        rw [blobRange_in hin hle]
        refine .congr (.ok trivial fun _ => rfl) fun hwhole => ?_
        rw [hq hwhole, ← hbyte hwhole, length_slice_in hin hwhole]
        by_cases hlong : n + 1 > outBytes
        · rw [if_pos hlong, if_pos hlong, slice, slice, List.take_take, Nat.min_eq_left (by omega)]
        · rw [if_neg hlong, if_neg hlong]

end Sound

end TinyLlm
