/-
# `TinyLlm.Sem.Text` — from arguments to text and back

What the user typed passes through the argument buffer, the tokenizer, the
coder, the hex digits, and all of them again.  The tokenizer and the coder give
back what they got.  The buffer does not: an argument that does not fit is left
out, a space is put only behind something, and no text at all becomes a wire of
no bytes, which the other end refuses.  So a message that is sent says what was
typed exactly if the arguments fit (`cmdSemEncode_cmdSemDecode`).
-/
import TinyLlm.Sem.Interop

namespace TinyLlm

open IntervalCoding

/-! ## Joining the arguments -/

/-- The arguments with single spaces between them. -/
def joinArgs (args : List (List UInt8)) : List UInt8 := [0x20].intercalate args

/-- The arguments fit the buffer, and the first of them is there to put a space
behind. -/
def ArgsFit (args : List (List UInt8)) : Prop :=
  ∃ first rest, args = first :: rest ∧ first ≠ [] ∧ first.length ≤ 189 ∧
    (joinArgs args).length ≤ 190

theorem joinArgs_cons (first : List UInt8) : ∀ rest : List (List UInt8),
    joinArgs (first :: rest) = first ++ rest.flatMap (0x20 :: ·)
  | [] => by rw [joinArgs, List.intercalate_singleton, List.flatMap_nil, List.append_nil]
  | arg :: rest => by
      have ih := joinArgs_cons arg rest
      rw [joinArgs] at ih ⊢
      rw [List.intercalate_cons_cons, ih, List.flatMap_cons, List.append_assoc]
      rfl

theorem semTextStep_length_le {text arg : List UInt8} (h : text.length ≤ 190) :
    (semTextStep text arg).length ≤ 190 := by
  unfold semTextStep semTextBytes
  split
  · split <;> simp only [List.length_append, List.length_singleton] <;> omega
  · exact h

theorem semText_fold_length_le : ∀ (args : List (List UInt8)) {text : List UInt8},
    text.length ≤ 190 → (args.foldl semTextStep text).length ≤ 190
  | [], _, h => h
  | _ :: args, _, h => semText_fold_length_le args (semTextStep_length_le h)

theorem semText_length_le (args : List (List UInt8)) : (semText args).length ≤ 190 :=
  semText_fold_length_le args (Nat.zero_le _)

/-- An argument adds itself and a space at most. -/
theorem semText_fold_grows : ∀ (args : List (List UInt8)) (text : List UInt8),
    (args.foldl semTextStep text).length ≤ text.length + (args.flatMap (0x20 :: ·)).length
  | [], _ => Nat.le_refl _
  | arg :: args, text => by
      have ih := semText_fold_grows args (semTextStep text arg)
      have hstep : (semTextStep text arg).length ≤ text.length + (arg.length + 1) := by
        unfold semTextStep
        split
        · split <;> simp only [List.length_append, List.length_singleton] <;> omega
        · omega
      rw [List.foldl_cons, List.flatMap_cons, List.length_append, List.length_cons]
      omega

/-- Behind a text the arguments are all added if they fit. -/
theorem semText_fold_fits : ∀ (args : List (List UInt8)) {text : List UInt8}, text ≠ [] →
    (text ++ args.flatMap (0x20 :: ·)).length ≤ 190 →
    args.foldl semTextStep text = text ++ args.flatMap (0x20 :: ·)
  | [], text, _, _ => (List.append_nil text).symm
  | arg :: args, text, hne, h => by
      have hstep : semTextStep text arg = text ++ 0x20 :: arg := by
        rw [List.flatMap_cons, List.length_append, List.length_append, List.length_cons] at h
        unfold semTextStep semTextBytes
        rw [if_pos (by omega), if_pos (mt List.length_eq_zero_iff.mp hne), List.append_assoc]
        rfl
      rw [List.flatMap_cons, ← List.append_assoc] at h ⊢
      rw [List.foldl_cons, hstep]
      exact semText_fold_fits args (by simp) h

/-- The first argument, on its own. -/
theorem semText_cons (first : List UInt8) (rest : List (List UInt8)) :
    semText (first :: rest)
      = rest.foldl semTextStep (if first.length ≤ 189 then first else []) := by
  have hstep : semTextStep [] first = if first.length ≤ 189 then first else [] := by
    unfold semTextStep semTextBytes
    have htest : ([] : List UInt8).length + first.length + 2 < 192 ↔ first.length ≤ 189 := by
      rw [List.length_nil]
      omega
    simp only [htest]
    rfl
  rw [semText, List.foldl_cons, hstep]

/-- **The buffer** holds the arguments exactly if they fit. -/
theorem semText_eq_join_iff (args : List (List UInt8)) :
    semText args ≠ [] ∧ semText args = joinArgs args ↔ ArgsFit args := by
  constructor
  · rintro ⟨hne, heq⟩
    cases args with
    | nil => exact absurd rfl hne
    | cons first rest =>
        have hlen := semText_length_le (first :: rest)
        have hjoin := congrArg List.length heq
        have hfits := semText_cons first rest
        rw [joinArgs_cons, List.length_append] at hjoin
        rcases Nat.lt_or_ge 189 first.length with hlong | hshort
        · -- left out: what is left is shorter
          rw [if_neg (by omega)] at hfits
          cases rest with
          | nil => exact absurd hfits hne
          | cons arg rest =>
              rw [List.flatMap_cons, List.length_append, List.length_cons] at hjoin
              omega
        · rw [if_pos hshort] at hfits
          refine ⟨first, rest, rfl, ?_, hshort, by rw [← heq]; exact hlen⟩
          rintro rfl
          -- an empty first argument: its space is missing
          cases rest with
          | nil => exact hne hfits
          | cons arg rest =>
              have hgrow := semText_fold_grows rest (if arg.length ≤ 189 then arg else [])
              have harg : (if arg.length ≤ 189 then arg else []).length ≤ arg.length := by
                split
                · exact Nat.le_refl _
                · exact Nat.zero_le _
              change semText ([] :: arg :: rest) = semText (arg :: rest) at hfits
              rw [hfits, semText_cons, List.flatMap_cons, List.length_append, List.length_cons,
                List.length_nil] at hjoin
              omega
  · rintro ⟨first, rest, rfl, hne, hshort, hlen⟩
    rw [joinArgs_cons] at hlen
    have heq := semText_fold_fits rest hne hlen
    rw [semText_cons, if_pos hshort, heq, joinArgs_cons]
    exact ⟨by simp [hne], rfl⟩

theorem semTextStep_nulFree {text arg : List UInt8} (htext : NulFree text) (harg : NulFree arg) :
    NulFree (semTextStep text arg) := by
  unfold semTextStep
  split
  · split
    · intro c hc
      rcases List.mem_append.mp hc with hc | hc
      · rcases List.mem_append.mp hc with hc | hc
        · exact htext c hc
        · cases List.mem_singleton.mp hc
          decide
      · exact harg c hc
    · intro c hc
      rcases List.mem_append.mp hc with hc | hc
      · exact htext c hc
      · exact harg c hc
  · exact htext

theorem semText_nulFree {args : List (List UInt8)} (h : ∀ a ∈ args, NulFree a) :
    NulFree (semText args) := by
  have hfold : ∀ (args : List (List UInt8)) {text : List UInt8}, (∀ a ∈ args, NulFree a) →
      NulFree text → NulFree (args.foldl semTextStep text) := by
    intro args
    induction args with
    | nil => exact fun _ htext => htext
    | cons a args ih =>
        intro text h htext
        exact ih (fun b hb => h b (List.mem_cons_of_mem a hb))
          (semTextStep_nulFree htext (h a List.mem_cons_self))
  exact hfold args h nofun

/-! ## Printing the pieces -/

section Pieces
variable {S : Type} {T : TqTokenizer S}

theorem cString_of_nulFree : ∀ {text : List UInt8}, NulFree text → cString text = text
  | [], _ => rfl
  | c :: text, h => by
      have hc := h c List.mem_cons_self
      rw [cString, List.takeWhile_cons_of_pos (by simpa using hc)]
      exact congrArg (c :: ·) (cString_of_nulFree fun x hx => h x (List.mem_cons_of_mem c hx))

/-- The pieces print what they decode to. -/
theorem printPieces_eq : ∀ (toks : List Int) {prev : Int} {text : List UInt8},
    tqDecodeAll T 64 prev toks = .ok text → NulFree text → printPieces T prev toks = text
  | [], _, _, h, _ => by
      cases h
      rfl
  | t :: toks, prev, text, h, hnul => by
      rw [tqDecodeAll] at h
      rw [printPieces]
      cases hout : tqDecode T prev t 64 with
      | error rc =>
          rw [hout] at h
          cases h
      | ok out =>
          rw [hout] at h
          cases hrest : tqDecodeAll T 64 t toks with
          | error rc =>
              simp only [bind, Except.bind, hrest] at h
              cases h
          | ok rest =>
              simp only [bind, Except.bind, hrest] at h
              cases h
              have hrun := printPieces_eq toks hrest
                fun c hc => hnul c (List.mem_append_right out hc)
              rw [hrun]
              exact congrArg (· ++ rest)
                (cString_of_nulFree fun c hc => hnul c (List.mem_append_left rest hc))

/-- The tokens of a text are tokens of the vocabulary, and say it. -/
theorem tqEncode_text (gt : S → S → Bool) {PV : PieceVocab S} {bos : Nat} (hT : T.For PV bos)
    (hV : PV.RoundTrips bos) {text : List UInt8} (hnul : NulFree text) {maxTokens : Nat}
    (hmax : text.length + 2 ≤ maxTokens) :
    ∃ toks, tqEncode gt T text true false maxTokens = .ok ((bos : Int) :: toks) ∧
      tqDecodeAll T 64 bos toks = .ok text ∧ (∀ t ∈ toks, 0 ≤ t ∧ t < PV.pieces.length) ∧
      toks.length ≤ text.length + 1 := by
  cases text with
  | nil =>
      refine ⟨[], tqEncode_nil gt hT (Nat.lt_of_lt_of_le ?_ hmax), rfl, nofun, Nat.zero_le _⟩
      decide
  | cons c text =>
      obtain ⟨toks, henc, hsaid⟩ := tqEncode_said gt hT hV (List.cons_ne_nil c text) hnul hmax
      refine ⟨toks, henc, hsaid.decode hT hV, fun t ht => ?_, hsaid.length_le hT hV⟩
      obtain ⟨i, hi, rfl, -⟩ := hsaid.valid t ht
      exact ⟨Int.natCast_nonneg i, Int.ofNat_lt.mpr hi⟩

end Pieces

/-! ## Both commands -/

section Commands
variable {F S : Type} (G : BoardModel F S)

/-- What is printed on one board is read on every board with the same model and
context, and says what was typed. -/
def KeepsText (hex2bin : List UInt8 → Nat → List UInt8) (B : Board F) (args : List (List UInt8)) :
    Prop :=
  ∃ r B₁, cmdSemEncode G B args = some (r, B₁) ∧
    match r with
    | .error _ => True
    | .ok sent => ∀ B₂ : Board F, B₂.loaded = B.loaded → B₂.haveTok = B.haveTok →
        B₂.rt.ctx = B.rt.ctx →
        ∃ toks B₃, cmdSemDecode G hex2bin B₂ sent.text = some (.ok ⟨toks, joinArgs args⟩, B₃)

/-- A text that the board can send: its tokens fit the context, and the bytes
of its interval the buffer. -/
def Sendable (B : Board F) (text : List UInt8) : Prop :=
  ∃ V, B.Ready G V ∧ ∃ (ts : List (Fin (G.sem V).vocab.size)) (hn : ts.length < semLenSymbols),
    tqEncode G.scoreGt G.tok text true false semMaxTokens = .ok (G.bos :: tokens (G.sem V) ts) ∧
      ts.length + 1 ≤ B.rt.ctx ∧ (semInterval (G.sem V) G.bos ts hn).digits ≤ semMaxWire

variable {G} {V : Vocab} {B : Board F}

/-- **The board encodes** what its limits allow. -/
theorem cmdSemEncode_run (hB : B.Ready G V) {args : List (List UInt8)}
    (hbos : 0 ≤ G.bos ∧ G.bos < V.size) {ts : List (Fin (G.sem V).vocab.size)}
    (hn : ts.length < semLenSymbols)
    (htoks : tqEncode G.scoreGt G.tok (semText args) true false semMaxTokens
      = .ok (G.bos :: tokens (G.sem V) ts))
    (hctx : ts.length + 1 ≤ B.rt.ctx) :
    ∃ e B', encodeTriples semMaxWire (semTriples (G.sem V) G.bos ts hn) = some e ∧
      cmdSemEncode G B args = some (if e.overflow then .error .overflow
        else .ok ⟨G.bos :: tokens (G.sem V) ts, printHex e.buf⟩, B') := by
  obtain ⟨e₁, he₁, hat₁, -⟩ := codeTriples_at
    [AcTriple.ofSlot (lenSlot ts.length hn) (lenSlot_tot_le hn)] (at_init semMaxWire)
  obtain ⟨e₂, he₂, -, -⟩ := codeTriples_at (tokenTriples (G.sem V) [G.bos] ts) hat₁
  obtain ⟨st', -, -, hrun⟩ := semEncodeFrom_triples (G.sem V) ts
    (show (SemState.mk B.rt V.model).pm.For V from V.model_for) (fed_nil B.rt) hbos (by
      rw [List.length_nil, Nat.zero_add]
      exact Nat.le_of_succ_le hctx)
  have hloop := hrun e₁
  rw [List.nil_append, he₂] at hloop
  have hboard := cmdSemEncodeFrom_ok (G.sem V) _ hloop
  have hfirst := tqAcEncSym_ofSlot (t := lenSlot ts.length hn) (lenSlot_tot_le hn)
    (toNat_lenCum hn) toNat_semLenFreq toNat_tqAcTot (tqAcEncInit semMaxWire)
  rw [he₁] at hfirst
  have hsplit := codeTriples_append (tqAcEncInit semMaxWire)
    [AcTriple.ofSlot (lenSlot ts.length hn) (lenSlot_tot_le hn)] (tokenTriples (G.sem V) [G.bos] ts)
  rw [he₁, Option.bind_some, he₂] at hsplit
  refine ⟨tqAcEncFinish e₂, { B with rt := st'.rt, semPm := st'.pm }, ?_, ?_⟩
  · rw [encodeTriples, semTriples]
    change codeTriples _ (_ :: tokenTriples (G.sem V) [G.bos] ts) = _ at hsplit
    rw [hsplit]
    rfl
  · have hlen : (G.bos :: tokens (G.sem V) ts).length = ts.length + 1 := by simp [tokens]
    have hfit : ¬ (ts.length > 255 ∨ ts.length + 1 > B.rt.ctx) := by
      unfold semLenSymbols at hn
      omega
    unfold cmdSemEncode
    rw [semReady_ok hB]
    dsimp only
    rw [htoks]
    dsimp only
    simp only [hlen, Nat.add_sub_cancel, if_neg hfit, hfirst, Option.bind_eq_bind, Option.bind_some]
    rw [List.length_nil] at hboard
    rw [hboard]
    rfl

/-- And reports an overflow if the digits of the message do not fit. -/
theorem cmdSemEncode_overflow_iff (hB : B.Ready G V) {args : List (List UInt8)}
    (hbos : 0 ≤ G.bos ∧ G.bos < V.size) {ts : List (Fin (G.sem V).vocab.size)}
    (hn : ts.length < semLenSymbols)
    (htoks : tqEncode G.scoreGt G.tok (semText args) true false semMaxTokens
      = .ok (G.bos :: tokens (G.sem V) ts))
    (hctx : ts.length + 1 ≤ B.rt.ctx) :
    (∃ B', cmdSemEncode G B args = some (.error .overflow, B')) ↔
      semMaxWire < (semInterval (G.sem V) G.bos ts hn).digits := by
  obtain ⟨e, B₁, he, hrun⟩ := cmdSemEncode_run hB hbos hn htoks hctx
  have hflag := encodeTriples_flag he
  rw [tripleInterval_semTriples] at hflag
  cases hov : e.overflow with
  | true =>
      rw [hov] at hrun hflag
      exact iff_of_true ⟨B₁, hrun⟩ (of_decide_eq_true hflag.symm)
  | false =>
      rw [hov] at hrun hflag
      refine iff_of_false ?_ (of_decide_eq_false hflag.symm)
      rintro ⟨B', hover⟩
      cases hover.symm.trans hrun

/-- The length of no tokens starts at zero. -/
theorem flushPoint_len_zero :
    flushPoint (initIv.code 256 (2 ^ 24) 3 (lenSlot 0 (by decide))) = 0 := by
  decide

/-- Over its context it refuses. -/
theorem cmdSemEncode_long (hB : B.Ready G V) {args : List (List UInt8)} {toks : List Int}
    (htoks : tqEncode G.scoreGt G.tok (semText args) true false semMaxTokens = .ok toks)
    (hctx : B.rt.ctx < toks.length) :
    cmdSemEncode G B args
      = some (.error (.tooLong (toks.length - 1)), { B with semPm := V.model }) := by
  unfold cmdSemEncode
  rw [semReady_ok hB]
  dsimp only
  rw [htoks]
  dsimp only
  rw [if_pos (.inr hctx)]

/-- A text without tokens has an empty wire. -/
theorem buf_nil_of_flag {e : TqAcEnc} {hn : 0 < semLenSymbols}
    (he : encodeTriples semMaxWire (semTriples (G.sem V) G.bos [] hn) = some e)
    (hov : e.overflow = false) : e.buf = [] := by
  have hpoint : flushPoint (semInterval (G.sem V) G.bos [] hn) = 0 := flushPoint_len_zero
  refine List.eq_nil_of_length_eq_zero (Nat.le_zero.mp ?_)
  rw [encodeTriples_length_le_iff he hov, tripleInterval_semTriples, hpoint]
  exact dvd_zero _

section Vocabulary
variable {PV : PieceVocab S} {bos : Nat} {hex2bin : List UInt8 → Nat → List UInt8}
variable (hV : PV.RoundTrips bos) (hT : G.tok.For PV bos) (hbos : G.bos = bos)
  (hsize : G.vocabSize = PV.pieces.length)
include hV hT hbos hsize

/-- What `cmd_sem_encode` makes of the arguments on a board that is ready. -/
theorem semText_tokens (hB : B.Ready G V) {args : List (List UInt8)}
    (hnul : ∀ a ∈ args, NulFree a) :
    (0 ≤ G.bos ∧ G.bos < V.size) ∧
      ∃ ts : List (Fin (G.sem V).vocab.size), ts.length < semLenSymbols ∧
        tqEncode G.scoreGt G.tok (semText args) true false semMaxTokens
          = .ok (G.bos :: tokens (G.sem V) ts) ∧
        printPieces G.tok G.bos (tokens (G.sem V) ts) = semText args ∧
        ts.length ≤ (semText args).length + 1 ∧ (semText args ≠ [] → 0 < ts.length) := by
  have hsz : V.size = PV.pieces.length := Int.ofNat_inj.mp (hB.vocab.symm.trans hsize)
  have hlen := semText_length_le args
  have htext := semText_nulFree hnul
  obtain ⟨toks, htoks, hdec, hvalid, hshort⟩ := tqEncode_text G.scoreGt hT hV htext
    (show (semText args).length + 2 ≤ semMaxTokens by unfold semMaxTokens; omega)
  rw [← hsz] at hvalid
  obtain ⟨ts, rfl⟩ := exists_tokens (G.sem V) hvalid
  rw [← hbos] at htoks hdec
  have hlts : (tokens (G.sem V) ts).length = ts.length := List.length_map _
  rw [hlts] at hshort
  refine ⟨?_, ts, ?_, htoks, printPieces_eq _ hdec htext, hshort, fun hne => ?_⟩
  · have hlt := hV.bos_lt
    rw [hbos, hsz]
    exact ⟨Int.natCast_nonneg bos, Int.ofNat_lt.mpr hlt⟩
  · have hmax := tqEncode_length_le G.scoreGt G.tok htoks
    rw [List.length_cons, hlts] at hmax
    exact hmax
  · refine Nat.pos_of_ne_zero fun hzero => hne ?_
    obtain rfl := List.eq_nil_of_length_eq_zero hzero
    exact (Except.ok.inj hdec).symm

/-- **What is sent** is read as the text, and refused if there is none. -/
theorem Sendable.run (hhex : ReadsHex hex2bin) {args : List (List UInt8)}
    (hnul : ∀ a ∈ args, NulFree a) (hsend : Sendable G B (semText args)) :
    ∃ sent B₁, cmdSemEncode G B args = some (.ok sent, B₁) ∧
      ∀ B₂ : Board F, B₂.loaded = B.loaded → B₂.haveTok = B.haveTok → B₂.rt.ctx = B.rt.ctx →
        (semText args = [] → ∃ B₃, cmdSemDecode G hex2bin B₂ sent.text =
        some (.error .notHex, B₃)) ∧
        (semText args ≠ [] → ∃ toks B₃,
          cmdSemDecode G hex2bin B₂ sent.text = some (.ok ⟨toks, semText args⟩, B₃)) := by
  obtain ⟨V, hB, ts, hn, htoks, hctx, hdig⟩ := hsend
  obtain ⟨hrange, ts', -, htoks', hprint, -, hpos⟩ := semText_tokens hV hT hbos hsize hB hnul
  cases tokens_injective (G.sem V) (List.cons.inj (Except.ok.inj (htoks'.symm.trans htoks))).2
  obtain ⟨e, B₁, he, hrun⟩ := cmdSemEncode_run hB hrange hn htoks hctx
  have hov : e.overflow = false := by
    rw [encodeTriples_flag he, tripleInterval_semTriples]
    exact decide_eq_false (Nat.not_lt_of_le hdig)
  rw [hov] at hrun
  have hread := hhex.reads e.buf semMaxWire (encodeTriples_length_le he)
  refine ⟨_, B₁, hrun, fun B₂ hload htok hctx₂ => ?_⟩
  have hB₂ : B₂.Ready G V := ⟨hload.trans hB.loaded, htok.trans hB.haveTok, hB.vocab⟩
  constructor
  · intro hnil
    rw [hnil, tqEncode_nil G.scoreGt hT (by decide), ← hbos] at htoks
    have hnone := (List.cons.inj (Except.ok.inj htoks)).2
    obtain rfl := List.map_eq_nil_iff.mp hnone.symm
    rw [buf_nil_of_flag he hov] at hread
    refine ⟨_, cmdSemDecode_empty hB₂ ?_⟩
    rw [buf_nil_of_flag he hov]
    exact hread
  · intro hne
    have hin := encodeTriples_contains he hov
    rw [tripleInterval_semTriples] at hin
    have hwire := wire_ne_nil hn (hpos hne) (contains_of_codeTokens (G.sem V) ts hin)
    obtain ⟨B₃, hrun₃⟩ := cmdSemDecode_ok hB₂ hread hwire hrange hn (by rw [hctx₂]; exact hctx) hin
    rw [hprint] at hrun₃
    exact ⟨_, B₃, hrun₃⟩

/-- **What cannot be sent** is reported. -/
theorem cmdSemEncode_error {args : List (List UInt8)} (hnul : ∀ a ∈ args, NulFree a)
    (hsend : ¬ Sendable G B (semText args)) :
    ∃ f B₁, cmdSemEncode G B args = some (.error f, B₁) := by
  rcases semReady_cases G B with ⟨f, hf⟩ | ⟨V, hB⟩
  · refine ⟨f, B, ?_⟩
    unfold cmdSemEncode
    rw [hf]
  · obtain ⟨hrange, ts, hn, htoks, -⟩ := semText_tokens hV hT hbos hsize hB hnul
    have hlts : (tokens (G.sem V) ts).length = ts.length := List.length_map _
    rcases Nat.lt_or_ge B.rt.ctx (ts.length + 1) with hlong | hctx
    · refine ⟨_, _, cmdSemEncode_long hB htoks ?_⟩
      rw [List.length_cons, hlts]
      exact hlong
    · exact ⟨.overflow, (cmdSemEncode_overflow_iff hB hrange hn htoks hctx).mpr
        (Nat.lt_of_not_le fun hdig => hsend ⟨V, hB, ts, hn, htoks, hctx, hdig⟩)⟩

/-- **No text is lost, where it fits.**  Over a vocabulary that round-trips, a
message that the board sends is read as what was typed exactly if the arguments
fit the text buffer. -/
theorem cmdSemEncode_cmdSemDecode (hhex : ReadsHex hex2bin) (B : Board F)
    (args : List (List UInt8)) (hnul : ∀ a ∈ args, NulFree a) :
    KeepsText G hex2bin B args ↔ ArgsFit args ∨ ¬ Sendable G B (semText args) := by
  rcases Classical.em (Sendable G B (semText args)) with hsend | hsend
  · obtain ⟨sent, B₁, henc, hrun⟩ := hsend.run hV hT hbos hsize hhex hnul
    rw [or_iff_left (not_not_intro hsend), ← semText_eq_join_iff]
    constructor
    · rintro ⟨r, B', henc', hkeeps⟩
      cases henc'.symm.trans henc
      obtain ⟨toks, B₃, hdec⟩ := hkeeps B rfl rfl rfl
      obtain ⟨hnil, hsome⟩ := hrun B rfl rfl rfl
      have hne : semText args ≠ [] := fun h => by
        obtain ⟨B₄, herr⟩ := hnil h
        cases herr.symm.trans hdec
      obtain ⟨toks', B₄, hdec'⟩ := hsome hne
      have hreply := (Prod.mk.inj (Option.some.inj (hdec'.symm.trans hdec))).1
      exact ⟨hne, (SemReply.mk.inj (Except.ok.inj hreply)).2⟩
    · rintro ⟨hne, heq⟩
      refine ⟨.ok sent, B₁, henc, fun B₂ hload htok hctx => ?_⟩
      rw [← heq]
      exact (hrun B₂ hload htok hctx).2 hne
  · obtain ⟨f, B₁, herr⟩ := cmdSemEncode_error hV hT hbos hsize hnul hsend
    exact iff_of_true ⟨.error f, B₁, herr, trivial⟩ (.inr hsend)

end Vocabulary

end Commands

/-! ## A board with a token for every byte -/

def byteModel : BoardModel Unit Unit where
  vocabSize := 258
  bos := 0
  logits _ _ := ()
  gt _ _ := false
  deltaQ16 _ _ := 0
  tok := byteVocab.tokenizer 0 2 64
  scoreGt _ _ := false

def byteBoard : Board Unit := ⟨true, true, ⟨256, fun _ => 0, fun _ => ()⟩, twoVocab.model⟩

theorem byteModel_for : byteModel.tok.For byteVocab 0 := byteVocab.tokenizer_for 0 2 64

/-- Three arguments, one of them with bytes above 127. -/
theorem cmdSemEncode_cmdSemDecode_words :
    KeepsText byteModel readHex byteBoard [[0x61], [0xC3, 0xA9], [0x62, 0x63]] :=
  (cmdSemEncode_cmdSemDecode byteVocab_roundTrips byteModel_for rfl (by decide +kernel)
    readHex_reads byteBoard [[0x61], [0xC3, 0xA9], [0x62, 0x63]] (by decide)).mpr
    (.inl ⟨[0x61], [[0xC3, 0xA9], [0x62, 0x63]], rfl, by decide, by decide, by decide⟩)

/-- `a` and 190 bytes more: the second argument is left out, and the message
`a` is sent. -/
theorem cmdSemEncode_drops :
    ¬ ∀ (G : BoardModel Unit Unit) (PV : PieceVocab Unit) (bos : Nat)
      (hex2bin : List UInt8 → Nat → List UInt8) (B : Board Unit) (args : List (List UInt8)),
      PV.RoundTrips bos → G.tok.For PV bos → G.bos = bos → G.vocabSize = PV.pieces.length →
      ReadsHex hex2bin → (∀ a ∈ args, NulFree a) → KeepsText G hex2bin B args := by
  intro h
  have hnul : ∀ a ∈ [[0x61], List.replicate 190 0x62], NulFree a := by
    intro a ha c hc
    rcases List.mem_cons.mp ha with rfl | ha
    · cases List.mem_singleton.mp hc
      decide
    · cases List.mem_singleton.mp ha
      cases List.eq_of_mem_replicate hc
      decide
  have hvocab : byteModel.vocabSize = byteVocab.pieces.length := by decide +kernel
  have hB : byteBoard.Ready byteModel ⟨258, by decide, by decide⟩ := ⟨rfl, rfl, rfl⟩
  obtain ⟨r, B₁, henc, hkeeps⟩ := h byteModel byteVocab 0 readHex byteBoard _
    byteVocab_roundTrips byteModel_for rfl hvocab readHex_reads hnul
  obtain ⟨-, ts, hn, htoks, -, hlen, -⟩ :=
    semText_tokens byteVocab_roundTrips byteModel_for rfl hvocab hB hnul
  have htext : semText [[0x61], List.replicate 190 0x62] = [0x61] := by decide +kernel
  -- two tokens at most, of which the wire buffer has room for many more
  have hsend : Sendable byteModel byteBoard (semText [[0x61], List.replicate 190 0x62]) := by
    rw [htext] at hlen
    have hdig := tripleInterval_digits_le
      (semTriples (byteModel.sem ⟨258, by decide, by decide⟩) byteModel.bos ts hn) initIv
    rw [tripleInterval_semTriples, semTriples, List.length_cons, length_tokenTriples] at hdig
    change ts.length ≤ 2 at hlen
    refine ⟨_, hB, ts, hn, htoks, show ts.length + 1 ≤ 256 by omega, hdig.trans ?_⟩
    show 4 + 3 * (2 * ts.length + 1) ≤ 640
    omega
  obtain ⟨sent, B₂, henc₂, hrun⟩ := hsend.run byteVocab_roundTrips byteModel_for rfl hvocab
    readHex_reads hnul
  cases henc.symm.trans henc₂
  obtain ⟨toks, B₃, hdec⟩ := hkeeps byteBoard rfl rfl rfl
  obtain ⟨toks', B₄, hdec'⟩ := (hrun byteBoard rfl rfl rfl).2 (by rw [htext]; exact nofun)
  have hreply := (Prod.mk.inj (Option.some.inj (hdec'.symm.trans hdec))).1
  have hsame := (SemReply.mk.inj (Except.ok.inj hreply)).2
  rw [htext] at hsame
  exact absurd (congrArg List.length hsame) (by decide +kernel)

end TinyLlm
