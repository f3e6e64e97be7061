/-
# `TinyLlm.Firmware.Layout` — `finish_open`, `main.c`

What the board does once a model is in PSRAM or open on the card: open it, size
the context, carve the KV cache and the sampler's scratch out of PSRAM behind
the weights, and set up the runtime and the tokenizer.  `cmd_gen` later lays
three arrays over the scratch: indices and probabilities, and behind them, at
`8 * vocab`, the tokens of the prompt.

The check adds weights, cache and scratch.  It leaves out what `psram_alloc`
skips to align, and the prompt.  So the regions never meet, but they are all
inside the PSRAM exactly when the slack of the check covers both
(`finishOpen_layout`).

Addresses and `size_t` have 32 bits.  What is printed on success is left out.
-/
import TinyLlm.Lib.Bump
import TinyLlm.Forward.Memory
import TinyLlm.Model.Image
import TinyLlm.Tok.Init

namespace TinyLlm

open Relational Bump

/-! ## The code -/

/-- `PSRAM_BASE`. -/
def psramBase : Nat := 0x70000000

/-- The offset that is handed out, and the cursor behind it. -/
def psramAlloc (cursor bytes : Nat) : Nat × Nat :=
  let off := (cursor + 63) % 2 ^ 32
  let off := off - off % 64
  (off, (off + bytes) % 2 ^ 32)

/-- What the build and the board provide: `model_arena`, `fast_arena`, the size
of `tok_scratch`, and the PSRAM that was detected. -/
structure Fitted where
  modelArena : TqArena
  fastArena : TqArena
  tokScratch : Nat
  mbytes : UInt32

/-- `mbytes << 20`. -/
def Fitted.capacity (hw : Fitted) : Nat := hw.mbytes.toNat * 2 ^ 20

/-- Why a model was not opened. -/
inductive OpenFault where
  | model (f : Fault)
  | arena (fastNeed fastBytes : Nat)
  | kvCache (kvNeed maxSeq : Nat)
  | runtime (rc : TqStatus)

/-- `g_model`, `g_rt`, `g_have_tok`, `g_kv_off` and `g_scratch_off`. -/
structure Opened where
  model : TqModel
  rt : TqRuntime
  haveTok : Bool
  kvOff : Nat
  scratchOff : Nat

/-- The context that is asked for, or all of it. -/
def openContext (m : TqModel) (maxSeq : Int) : Nat :=
  if maxSeq ≤ 0 ∨ maxSeq > m.seqLen then m.seqLen else maxSeq.toNat

def openKv (kv8 : Bool) : TqKv := if kv8 then .q8 else .f32

/-- `kv_need`. -/
def openKvNeed (m : TqModel) (maxSeq : Int) (kv8 : Bool) : Nat :=
  tqKvBytes (2 ^ 32) m (openContext m maxSeq) (openKv kv8)

/-- `g_store.base != NULL`. -/
def TqStore.resident (st : TqStore) : Bool :=
  match st.backing with
  | .mapped _ => true
  | .stream _ _ => false

/-- `finish_open`, from the opened model on. -/
def finishLayout (hw : Fitted) (st : TqStore) (modelBytes : UInt64) (m : TqModel) (maxSeq : Int)
    (kv8 : Bool) : Except OpenFault Opened :=
  let context := openContext m maxSeq
  let fastNeed := tqRuntimeBytes (2 ^ 32) m context
  if fastNeed > hw.fastArena.cap then .error (.arena fastNeed hw.fastArena.cap)
  else
    let cursor := if st.resident then modelBytes.toNat % 2 ^ 32 else 0
    let kvNeed := openKvNeed m maxSeq kv8
    let scratchNeed := m.vocabSize * 8 % 2 ^ 32
    if (cursor + kvNeed + scratchNeed) % 2 ^ 32 > hw.capacity then .error (.kvCache kvNeed context)
    else
      let (kvOff, cursor) := psramAlloc cursor kvNeed
      let (scratchOff, _) := psramAlloc cursor scratchNeed
      match tqRuntimeInit m context (if kv8 then 1 else 0) hw.fastArena
        ⟨(psramBase + kvOff) % 2 ^ 32, kvNeed, 2 ^ 32⟩ with
      | .error rc => .error (.runtime rc)
      | .ok rt =>
          .ok { model := m, rt := rt, kvOff := kvOff, scratchOff := scratchOff,
                haveTok := (tqTokenizerInit (fun _ => ()) st m hw.tokScratch).toBool }

def finishOpen (hw : Fitted) (st : TqStore) (modelBytes : UInt64) (maxSeq : Int) (kv8 : Bool) :
    Prog OpenFault TqTile Opened := fun t =>
  match (tqModelOpen st hw.modelArena).exec t with
  | (.error f, t) => (.error (.model f), t)
  | (.ok m, t) => (finishLayout hw st modelBytes m maxSeq kv8, t)

/-! ## The regions -/

namespace Opened

variable (o : Opened)

/-- The sampler's indices. -/
def indices : Region := ⟨(psramBase + o.scratchOff) % 2 ^ 32, 4 * o.model.vocabSize⟩

/-- The sampler's probabilities. -/
def probabilities : Region :=
  ⟨(psramBase + o.scratchOff + o.model.vocabSize * 4 % 2 ^ 32) % 2 ^ 32, 4 * o.model.vocabSize⟩

/-- `toks`, which `tq_encode` may fill up to `g_rt.max_seq` tokens. -/
def prompt : Region :=
  ⟨(psramBase + o.scratchOff + o.model.vocabSize * 8 % 2 ^ 32) % 2 ^ 32, 4 * o.rt.maxSeq⟩

/-- The cache, of `kvNeed` bytes. -/
def kvCache (kvNeed : Nat) : Region := ⟨(psramBase + o.kvOff) % 2 ^ 32, kvNeed⟩

end Opened

/-- Everything that lies in PSRAM; a model on the card has no weights there. -/
def psramRegions (weights kvNeed : Nat) (o : Opened) : List Region :=
  [⟨psramBase, weights⟩, o.kvCache kvNeed, o.indices, o.probabilities, o.prompt]

/-- **The layout is sound**: no two regions meet, and all end in the PSRAM. -/
structure LayoutSound (hw : Fitted) (weights kvNeed : Nat) (o : Opened) : Prop where
  disjoint : (psramRegions weights kvNeed o).Pairwise fun r r' => Disjoint r.addrs r'.addrs
  inside : ∀ r ∈ psramRegions weights kvNeed o, r.stop ≤ psramBase + hw.capacity

/-! ## The regions as a placement -/

/-- What the check of `finish_open` adds up. -/
def checkedBytes (weights kvNeed vocab : Nat) : Nat := weights + kvNeed + 8 * vocab

/-- What it leaves out: the bytes skipped in front of the cache and of the
scratch, and the tokens of a prompt. -/
def uncheckedBytes (weights kvNeed maxSeq : Nat) : Nat :=
  pad 64 weights + pad 64 kvNeed + 4 * maxSeq

/-- The regions in order, each with its alignment. -/
def psramItems (weights kvNeed vocab maxSeq : Nat) : List (Nat × Nat) :=
  [(1, weights), (64, kvNeed), (64, 4 * vocab), (1, 4 * vocab), (1, 4 * maxSeq)]

theorem top_psramItems (weights kvNeed vocab maxSeq : Nat) :
    top psramBase (psramItems weights kvNeed vocab maxSeq) =
      psramBase + (checkedBytes weights kvNeed vocab + uncheckedBytes weights kvNeed maxSeq) := by
  have hbase : psramBase % 64 = 0 := rfl
  have hkv : pad 64 (psramBase + weights) = pad 64 weights := pad_add hbase weights
  have hscratch : pad 64 (roundUp 64 (psramBase + weights) + kvNeed) = pad 64 kvNeed :=
    pad_add (roundUp_mod (by decide) _) kvNeed
  simp only [psramItems, top, roundUp_one]
  unfold roundUp at hscratch ⊢
  rw [hscratch, hkv]
  unfold checkedBytes uncheckedBytes
  omega

/-- `psram_alloc` below the wrap. -/
theorem psramAlloc_eq {cursor bytes : Nat} (h : roundUp 64 cursor + bytes < 2 ^ 32 - 64) :
    psramAlloc cursor bytes = (roundUp 64 cursor, roundUp 64 cursor + bytes) := by
  have hle := le_roundUp 64 cursor
  have hup := roundUp_eq (show 0 < 64 by decide) cursor
  unfold psramAlloc
  dsimp only
  rw [Nat.mod_eq_of_lt (show cursor + 63 < 2 ^ 32 by omega), ← hup,
    Nat.mod_eq_of_lt (show roundUp 64 cursor + bytes < 2 ^ 32 by omega)]

theorem tqRuntimeInit_maxSeq {m : TqModel} {maxSeq kvDtype : Int} {fast cache : TqArena}
    {rt : TqRuntime} (h : tqRuntimeInit m maxSeq kvDtype fast cache = .ok rt) :
    rt.maxSeq = maxSeq.toNat := by
  unfold tqRuntimeInit at h
  split at h
  · cases h
  · split at h
    · cases h
    · dsimp only at h
      split at h
      · cases h
        rfl
      · cases h

/-- The weights in PSRAM: those of a resident model. -/
def residentBytes (st : TqStore) (modelBytes : UInt64) : Nat :=
  if st.resident then modelBytes.toNat else 0

/-- What a return of 0 says, with the cursor behind the weights. -/
structure LaidOut (hw : Fitted) (cursor : Nat) (m : TqModel) (maxSeq : Int) (kv8 : Bool)
    (o : Opened) :
    Prop where
  model : o.model = m
  context : o.rt.maxSeq = openContext m maxSeq
  kvOff : o.kvOff = (psramAlloc cursor (openKvNeed m maxSeq kv8)).1
  scratchOff : o.scratchOff =
    (psramAlloc (psramAlloc cursor (openKvNeed m maxSeq kv8)).2 (m.vocabSize * 8 % 2 ^ 32)).1

theorem finishLayout_ok {hw : Fitted} {st : TqStore} {modelBytes : UInt64} {m : TqModel}
    {maxSeq : Int} {kv8 : Bool} {o : Opened}
    (h : finishLayout hw st modelBytes m maxSeq kv8 = .ok o) :
    LaidOut hw (if st.resident then modelBytes.toNat % 2 ^ 32 else 0) m maxSeq kv8 o := by
  unfold finishLayout at h
  dsimp only at h
  generalize (if st.resident then modelBytes.toNat % 2 ^ 32 else 0) = cursor at h ⊢
  split at h
  · cases h
  · split at h
    · cases h
    · split at h
      · cases h
      · next rt hrt =>
          cases h
          exact ⟨rfl, tqRuntimeInit_maxSeq hrt, rfl, rfl⟩

theorem finishOpen_ok {hw : Fitted} {st : TqStore} {modelBytes : UInt64} {maxSeq : Int} {kv8 : Bool}
    {t t' : TqTile} {o : Opened}
    (h : (finishOpen hw st modelBytes maxSeq kv8).exec t = (.ok o, t')) :
    (tqModelOpen st hw.modelArena).exec t = (.ok o.model, t') ∧
      LaidOut hw (if st.resident then modelBytes.toNat % 2 ^ 32 else 0) o.model maxSeq kv8 o := by
  have hrun : (match (tqModelOpen st hw.modelArena).exec t with
      | (.error f, t) => (.error (.model f), t)
      | (.ok m, t) => (finishLayout hw st modelBytes m maxSeq kv8, t)) = (.ok o, t') := h
  rcases hopen : (tqModelOpen st hw.modelArena).exec t with ⟨f | m, t₁⟩
  · rw [hopen] at hrun
    cases hrun
  · rw [hopen] at hrun
    obtain ⟨hlayout, rfl⟩ := Prod.mk.inj hrun
    have hout := finishLayout_ok hlayout
    rw [hout.model]
    exact ⟨rfl, hout⟩

theorem finishOpen_eq {hw : Fitted} {st : TqStore} {modelBytes : UInt64} {maxSeq : Int} {kv8 : Bool}
    {t t' : TqTile} {m : TqModel} (h : (tqModelOpen st hw.modelArena).exec t = (.ok m, t')) :
    (finishOpen hw st modelBytes maxSeq kv8).exec t =
      (finishLayout hw st modelBytes m maxSeq kv8, t') := by
  have hrun : (finishOpen hw st modelBytes maxSeq kv8).exec t =
      match (tqModelOpen st hw.modelArena).exec t with
      | (.error f, t) => (.error (.model f), t)
      | (.ok m, t) => (finishLayout hw st modelBytes m maxSeq kv8, t) := rfl
  rw [hrun, h]

/-- Where nothing wraps, the regions are those of the placement. -/
theorem psramRegions_eq {hw : Fitted} {st : TqStore} {modelBytes : UInt64} {m : TqModel}
    {maxSeq : Int} {kv8 : Bool} {o : Opened}
    (h : LaidOut hw (if st.resident then modelBytes.toNat % 2 ^ 32 else 0) m maxSeq kv8 o)
    (hwrap : psramBase +
      (checkedBytes (residentBytes st modelBytes) (openKvNeed m maxSeq kv8) m.vocabSize +
        uncheckedBytes (residentBytes st modelBytes) (openKvNeed m maxSeq kv8)
        (openContext m maxSeq)) <
      2 ^ 32) :
    psramRegions (residentBytes st modelBytes) (openKvNeed m maxSeq kv8) o =
      place psramBase
      (psramItems (residentBytes st modelBytes) (openKvNeed m maxSeq kv8) m.vocabSize
        (openContext m maxSeq)) := by
  have hbase : psramBase % 64 = 0 := rfl
  have hbaseVal : psramBase = 0x70000000 := rfl
  have hcursor : (if st.resident then modelBytes.toNat % 2 ^ 32 else 0) =
      residentBytes st modelBytes := by
    unfold residentBytes at hwrap ⊢
    split
    · next hres =>
        rw [if_pos hres] at hwrap
        unfold checkedBytes at hwrap
        exact Nat.mod_eq_of_lt (by omega)
    · rfl
  rw [hcursor] at h
  obtain ⟨hmodel, hctx, hkv, hscratch⟩ := h
  generalize residentBytes st modelBytes = weights at *
  generalize openKvNeed m maxSeq kv8 = kvNeed at *
  unfold checkedBytes uncheckedBytes at hwrap
  -- the paddings do not depend on the base, nor the second one on the weights
  have hkvPad : pad 64 (psramBase + weights) = pad 64 weights := pad_add hbase weights
  have hpad : pad 64 (roundUp 64 weights + kvNeed) = pad 64 kvNeed :=
    pad_add (roundUp_mod (by decide) weights) kvNeed
  have hscratchPad : pad 64 (roundUp 64 (psramBase + weights) + kvNeed) = pad 64 kvNeed :=
    pad_add (roundUp_mod (by decide) _) kvNeed
  have halloc := @psramAlloc_eq weights kvNeed (by unfold roundUp; omega)
  have hscratchOff : roundUp 64 (roundUp 64 weights + kvNeed) =
      weights + pad 64 weights + kvNeed + pad 64 kvNeed := by
    rw [roundUp, hpad, roundUp]
  have halloc' := @psramAlloc_eq (roundUp 64 weights + kvNeed) (m.vocabSize * 8) (by
    rw [hscratchOff]
    omega)
  rw [halloc] at hkv hscratch
  rw [Nat.mod_eq_of_lt (show m.vocabSize * 8 < 2 ^ 32 by omega), halloc', hscratchOff] at hscratch
  have hitems : place psramBase (psramItems weights kvNeed m.vocabSize (openContext m maxSeq)) =
      [⟨psramBase, weights⟩, ⟨psramBase + weights + pad 64 weights, kvNeed⟩,
       ⟨psramBase + weights + pad 64 weights + kvNeed + pad 64 kvNeed, 4 * m.vocabSize⟩,
       ⟨psramBase + weights + pad 64 weights + kvNeed + pad 64 kvNeed + 4 * m.vocabSize,
       4 * m.vocabSize⟩,
       ⟨psramBase + weights + pad 64 weights + kvNeed + pad 64 kvNeed + 4 * m.vocabSize +
       4 * m.vocabSize,
        4 * openContext m maxSeq⟩] := by
    simp only [psramItems, place, roundUp_one]
    unfold roundUp at hscratchPad ⊢
    rw [hscratchPad, hkvPad]
  rw [hitems]
  unfold psramRegions Opened.kvCache Opened.indices Opened.probabilities Opened.prompt
  rw [hmodel, hctx, hkv, hscratch]
  unfold roundUp
  rw [Nat.mod_eq_of_lt (show psramBase + (weights + pad 64 weights) < 2 ^ 32 by omega),
    Nat.mod_eq_of_lt (show m.vocabSize * 4 < 2 ^ 32 by omega),
    Nat.mod_eq_of_lt (show m.vocabSize * 8 < 2 ^ 32 by omega),
    Nat.mod_eq_of_lt (show psramBase + (weights + pad 64 weights + kvNeed + pad 64 kvNeed) <
    2 ^ 32 by omega),
    Nat.mod_eq_of_lt (show psramBase + (weights + pad 64 weights + kvNeed + pad 64 kvNeed) +
      m.vocabSize * 4 < 2 ^ 32 by omega),
    Nat.mod_eq_of_lt (show psramBase + (weights + pad 64 weights + kvNeed + pad 64 kvNeed) +
      m.vocabSize * 8 < 2 ^ 32 by omega)]
  simp only [List.cons.injEq, Region.mk.injEq, and_true, true_and]
  omega

/-! ## Soundness -/

/-- What `finish_open` checks to be there, for a model and a context. -/
def openChecked (st : TqStore) (modelBytes : UInt64) (m : TqModel) (maxSeq : Int)
    (kv8 : Bool) : Nat :=
  checkedBytes (residentBytes st modelBytes) (openKvNeed m maxSeq kv8) m.vocabSize

/-- What it does not: two paddings and the prompt. -/
def openUnchecked (st : TqStore) (modelBytes : UInt64) (m : TqModel) (maxSeq : Int)
    (kv8 : Bool) : Nat :=
  uncheckedBytes (residentBytes st modelBytes) (openKvNeed m maxSeq kv8) (openContext m maxSeq)

/-- **The layout of an opened model** is sound if and only if the PSRAM has room
for what the check leaves out: the padding of the two allocations and the prompt
array. -/
theorem finishOpen_layout {hw : Fitted} {st : TqStore} {modelBytes : UInt64}
    {maxSeq : Int} {kv8 : Bool} {t t' : TqTile} {o : Opened}
    (h : (finishOpen hw st modelBytes maxSeq kv8).exec t = (.ok o, t'))
    (hwrap : psramBase + (openChecked st modelBytes o.model maxSeq kv8 +
      openUnchecked st modelBytes o.model maxSeq kv8) < 2 ^ 32) :
    LayoutSound hw (residentBytes st modelBytes) (openKvNeed o.model maxSeq kv8) o ↔
      openChecked st modelBytes o.model maxSeq kv8 + openUnchecked st modelBytes
      o.model maxSeq kv8 ≤
        hw.capacity := by
  obtain ⟨-, hout⟩ := finishOpen_ok h
  have hregions := psramRegions_eq hout hwrap
  have hfit :=
    place_le_iff (psramItems (residentBytes st modelBytes) (openKvNeed o.model maxSeq kv8)
    o.model.vocabSize (openContext o.model maxSeq)) (Nat.le_add_right psramBase hw.capacity)
  rw [top_psramItems, Nat.add_le_add_iff_left, ← hregions] at hfit
  constructor
  · intro hsound
    exact hfit.mp hsound.inside
  · intro hroom
    refine ⟨?_, hfit.mpr hroom⟩
    rw [hregions]
    exact place_disjoint _ _

/-- 8 MB of PSRAM and the arenas of the default build. -/
def fitted8 : Fitted := ⟨⟨0, 4096, 2 ^ 32⟩, ⟨0, 262144, 2 ^ 32⟩, 64, 8⟩

/-- A model of 2400 bytes whose full context takes 8 MB of cache. -/
def tightStore : TqStore := tqStoreInitMapped (sampleImage 80 32756 1440 1440) 2400

theorem tight_describes : Describes (sampleHeader 80 32756 2400) (sampleEntries 80 1440) :=
  sample_describes (by decide) (by decide) (by decide) (by decide)

/-- The model in it. -/
def tightModel : TqModel :=
  tqResolve (tqModelDims (sampleHeader 80 32756 2400))
    ⟨(tqWants (tqModelDims (sampleHeader 80 32756 2400))).map
      (TqWant.settle (sampleEntries 80 1440)), layersAfter (sampleEntries 80 1440) 1⟩

theorem tightStore_opens (t : TqTile) :
    (tqModelOpen tightStore fitted8.modelArena).exec t = (.ok tightModel, t) := by
  obtain ⟨m, hres⟩ := @open_image _ _ (List.replicate 1440 0) 2400 fitted8.modelArena
    tight_describes (by decide)
    (by decide) (by decide) (by decide +kernel) t
  have hmodel := (tqModelOpen_mapped.mp hres).1.model
  rw [imageWalk_image tight_describes, imageDims, decode_image tight_describes] at hmodel
  obtain rfl : m = tightModel := hmodel
  exact hres

/-- With a context of 128 there is room for everything. -/
theorem finishOpen_layout_short :
    ∃ o t', (finishOpen fitted8 tightStore 2400 128 false).exec ⟨0, []⟩ = (.ok o, t') ∧
      LayoutSound fitted8 (residentBytes tightStore 2400) (openKvNeed o.model 128 false) o := by
  have hroom : (finishLayout fitted8 tightStore 2400 tightModel 128 false).toOption.any
      (fun o => psramBase + (openChecked tightStore 2400 o.model 128 false +
          openUnchecked tightStore 2400 o.model 128 false) < 2 ^ 32 &&
        openChecked tightStore 2400 o.model 128 false +
          openUnchecked tightStore 2400 o.model 128 false ≤ fitted8.capacity) = true := by
    decide +kernel
  have hres := @finishOpen_eq fitted8 tightStore 2400 128 false _ _ _ (tightStore_opens ⟨0, []⟩)
  cases hout : finishLayout fitted8 tightStore 2400 tightModel 128 false with
  | error e =>
      rw [hout] at hroom
      cases hroom
  | ok o =>
      rw [hout] at hroom hres
      simp only [Except.toOption, Option.any_some, Bool.and_eq_true, decide_eq_true_eq] at hroom
      obtain ⟨hwrap, hfits⟩ := hroom
      exact ⟨o, _, hres, (finishOpen_layout hres hwrap).mpr hfits⟩

/-- With its full context the check finds the PSRAM exactly full, and the
probabilities end 64 bytes behind it. -/
theorem finishOpen_layout_full :
    ¬ ∀ (hw : Fitted) (st : TqStore) (modelBytes : UInt64) (maxSeq : Int) (kv8 :
      Bool) (t t' : TqTile)
      (o : Opened), (finishOpen hw st modelBytes maxSeq kv8).exec t = (.ok o, t') →
      psramBase + (openChecked st modelBytes o.model maxSeq kv8 +
        openUnchecked st modelBytes o.model maxSeq kv8) < 2 ^ 32 →
      LayoutSound hw (residentBytes st modelBytes) (openKvNeed o.model maxSeq kv8) o := by
  intro hall
  have hfull : (finishLayout fitted8 tightStore 2400 tightModel 0 false).toOption.any
      (fun o => psramBase + (openChecked tightStore 2400 o.model 0 false +
          openUnchecked tightStore 2400 o.model 0 false) < 2 ^ 32 &&
        o.probabilities.stop = psramBase + fitted8.capacity + 64) = true := by
    decide +kernel
  have hres := @finishOpen_eq fitted8 tightStore 2400 0 false _ _ _ (tightStore_opens ⟨0, []⟩)
  cases hout : finishLayout fitted8 tightStore 2400 tightModel 0 false with
  | error e =>
      rw [hout] at hfull
      cases hfull
  | ok o =>
      rw [hout] at hfull hres
      simp only [Except.toOption, Option.any_some, Bool.and_eq_true, decide_eq_true_eq] at hfull
      obtain ⟨hwrap, hstop⟩ := hfull
      have hinside := (hall _ _ _ _ _ _ _ _ hres hwrap).inside o.probabilities
        (by simp [psramRegions])
      rw [hstop] at hinside
      omega

end TinyLlm
