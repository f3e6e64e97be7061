/-
# `TinyLlm.Forward.Wrapped` — a runtime whose cache wrapped

`tq_runtime_init` computes the bytes of a cache in a `size_t`.  With one of 32
bits a context of 2^25 + 2 positions of 128 bytes wraps to 256 bytes: two
positions, and the values begin where the third key is kept.  Nothing is
refused, and the arenas may be far smaller than the buffers.

  positions 0 and 1    share no byte, so they are what they are with buffers apart
  position 2           overwrites the value of position 0 with its own key

Scalars here are marks: a difference is marked, and a mark goes from a value
through the attention to the logits.  A key is rotated and so has marks, and a
value has none, so the mark tells which of the two was read.
-/
import TinyLlm.Forward.Decode
import TinyLlm.Forward.Frame

namespace TinyLlm

open Loop Bump Footprints Relational ByteMemory

/-! ## Marks -/

/-- A scalar is a mark.  A difference is marked, a sum is if one of its terms
is; a product has the mark of its second factor and a quotient that of its
dividend. -/
def markOps : FloatOps Bool where
  ofBits b := b == 0x3F800000
  toBits v := if v then 0x3F800000 else 0
  ofInt _ := false
  toInt _ := 0
  half := false
  add := or
  sub _ _ := true
  mul _ y := y
  div x _ := x
  neg := id
  sqrt := id
  lt x y := !x && y
  beq _ _ := false
  tqExpf _ := false
  tqPowf _ _ := false
  tqCosf _ := false
  tqSinf _ := false

/-- Some of the first `n` elements is marked. -/
def Marked (n : Nat) (x : Nat → Bool) : Prop := ∃ i < n, x i = true

theorem marked_succ {n : Nat} {x : Nat → Bool} : Marked (n + 1) x ↔ Marked n x ∨ x n = true := by
  refine ⟨fun ⟨i, hi, hx⟩ => ?_, fun h => ?_⟩
  · rcases Nat.lt_succ_iff_lt_or_eq.mp hi with hlt | rfl
    · exact .inl ⟨i, hlt, hx⟩
    · exact .inr hx
  · rcases h with ⟨i, hi, hx⟩ | hx
    · exact ⟨i, Nat.lt_succ_of_lt hi, hx⟩
    · exact ⟨n, Nat.lt_succ_self n, hx⟩

/-- A sum of marks. -/
theorem sum_marked (x : Nat → Bool) : ∀ n,
    forUp n (fun i acc => markOps.add acc (x i)) false = true ↔ Marked n x
  | 0 => ⟨fun h => absurd h Bool.false_ne_true, fun ⟨_, hi, _⟩ => absurd hi (Nat.not_lt_zero _)⟩
  | n + 1 => by
      rw [forUp, marked_succ, ← sum_marked x n]
      exact Bool.or_eq_true_iff

theorem blockAmax_marked (src : Nat → Bool) :
    blockAmax markOps src = true ↔ Marked tqGroupSize src := by
  unfold blockAmax
  generalize tqGroupSize = n
  rw [← sum_marked src n]
  refine Eq.congr_left (forUp_congr _ fun j _ amax => ?_)
  cases amax <;> cases src j <;> rfl

/-- A block has the mark of its elements in its scale. -/
theorem quantizeBlock_marked (src : Nat → Bool) :
    tqHalfToFloat markOps (quantizeBlock markOps src).d = blockAmax markOps src := by
  have hscale : ∀ amax : Bool, tqHalfToFloat markOps
      (tqFloatToHalf markOps (markOps.div amax (markOps.ofInt 127))) =
      amax := by decide
  exact hscale _

section Network
variable (image : List UInt8) {m : TqModel}

/-- **A matrix** of 32 columns marks all results if its vector is marked, and none else. -/
theorem project_marked (off r : Nat) (x : Nat → Bool) :
    project markOps image m off 32 x r = true ↔ Marked 32 x := by
  have hfold : ∀ acc dw, dotFold markOps acc dw (fun b => (quantized markOps x b).d) 1 =
      tqHalfToFloat markOps (quantized markOps x 0).d := fun acc dw => Bool.false_or _
  have hsame : project markOps image m off 32 x r =
      tqHalfToFloat markOps (quantized markOps x 0).d := by
    unfold project rowDot
    split
    · exact hfold _ _
    · exact hfold _ _
  rw [hsame, quantized, quantizeBlock_marked, blockAmax_marked]
  simp only [Nat.zero_mul, Nat.zero_add]
  exact Iff.rfl

theorem project_unmarked (off r : Nat) {x : Nat → Bool} (h : ¬ Marked 32 x) :
    project markOps image m off 32 x r = false :=
  Bool.eq_false_iff.mpr fun hr => h ((project_marked image off r x).mp hr)

variable (hdim : m.dim = 32) (hhidden : m.hiddenDim = 32)
include hdim hhidden

/-- Behind the attention all is marked, or nothing. -/
theorem answer_marked (l r : Nat) (x : Nat → Bool) (kv : TqKv) :
    (transformer markOps image m kv).answer (feedForwardOut markOps image m l x) r = true ↔
      Marked 32 x := by
  have hffn : Marked 32 (feedForwardOut markOps image m l x) ↔ Marked 32 x := by
    refine ⟨fun ⟨i, hi, hx⟩ => ?_, fun ⟨i, hi, hx⟩ => ⟨i, hi, ?_⟩⟩
    · by_contra hno
      unfold feedForwardOut at hx
      rw [hdim, hhidden] at hx
      rcases Bool.or_eq_true_iff.mp hx with hx | hx
      · exact hno ⟨i, hi, hx⟩
      · obtain ⟨j, _, hj⟩ := (project_marked image _ i _).mp hx
        exact hno ((project_marked image _ j x).mp hj)
    · exact Bool.or_eq_true_iff.mpr (.inl hx)
  show project markOps image m m.classifier m.dim (feedForwardOut markOps image m l x) r = true ↔ _
  rw [hdim, project_marked, hffn]

/-- **A marked value** behind the position is seen in the logits. -/
theorem answer_of_value {pos : Nat} {x : Nat → Bool} {rows : Nat → KvRow Bool} {t : Nat}
    (ht : t ≤ pos) (h : (rows t).value 0 = true) (r : Nat) :
    (transformer markOps image m .f32).answer
      ((transformer markOps image m .f32).out 0 pos x rows) r = true := by
  refine (answer_marked image hdim hhidden 0 r _ .f32).mpr ⟨0, by decide, ?_⟩
  refine Bool.or_eq_true_iff.mpr (.inr ?_)
  rw [hdim]
  refine (project_marked image _ 0 _).mpr ⟨0, by decide, ?_⟩
  unfold attended headOut
  refine (sum_marked _ _).mpr ⟨t, Nat.lt_succ_of_le ht, ?_⟩
  show (rows t).value (0 / m.headSize / m.kvMul * m.headSize + 0 % m.headSize) = true
  rw [Nat.zero_div, Nat.zero_div, Nat.zero_mul, Nat.zero_mod]
  exact h

/-- Without a mark in the state and in the values there is none in the logits. -/
theorem answer_unmarked {pos : Nat} {x : Nat → Bool} {rows : Nat → KvRow Bool} (hx : ¬ Marked 32 x)
    (h : ∀ t i, (rows t).value i = false) (r : Nat) :
    (transformer markOps image m .f32).answer
      ((transformer markOps image m .f32).out 0 pos x rows) r = false := by
  refine Bool.eq_false_iff.mpr fun hr => ?_
  obtain ⟨i, hi, hout⟩ := (answer_marked image hdim hhidden 0 r _ .f32).mp hr
  rcases Bool.or_eq_true_iff.mp hout with hxi | hatt
  · exact hx ⟨i, hi, hxi⟩
  · rw [hdim] at hatt
    obtain ⟨j, _, hj⟩ := (project_marked image _ i _).mp hatt
    unfold attended headOut at hj
    obtain ⟨t, _, ht⟩ := (sum_marked _ _).mp hj
    have ht : (rows t).value _ = true := ht
    rw [h t] at ht
    cases ht

end Network

/-! ## The file and the runtime -/

/-- The smallest model, for a context of 2^25 + 2 positions. -/
def wrapImage : List UInt8 := sampleImage 60 (2 ^ 25 + 2) 0 1080

def wrapStore : TqStore := tqStoreInitMapped wrapImage 2040

def wrapModel : TqModel := tqResolve (imageDims wrapImage) (imageWalk wrapImage)

/-- Room for the scores of the head, and 4096 bytes for all else. -/
def wrapFast : TqArena := ⟨0x10000000, 2 ^ 27 + 4096, 2 ^ 32⟩

def wrapCache : TqArena := ⟨0x70000000, 4096, 2 ^ 32⟩

theorem wrapModel_opens :
    (tqModelOpen wrapStore ⟨0x20001000, 1000, 2 ^ 32⟩).exec ⟨0, []⟩ = (.ok wrapModel, ⟨0, []⟩) := by
  have hdesc : Describes (sampleHeader 60 (2 ^ 25 + 2) 2040) (sampleEntries 60 0) :=
    sample_describes (by decide) (by decide) (by decide) (by decide)
  obtain ⟨m, hopen⟩ := @open_image _ _ (List.replicate 1080 0) 2040 ⟨0x20001000, 1000, 2 ^ 32⟩
    hdesc (by decide)
    (by decide) (by decide) (by decide +kernel) ⟨0, []⟩
  obtain rfl : m = wrapModel := (tqModelOpen_mapped.mp hopen).1.model
  exact hopen

theorem wrapModel_sized : wrapModel.Sized := tqModelOpen_sized wrapModel_opens

theorem wrapModel_serves {F : Type} (O : FloatOps F) : Serves O wrapStore wrapModel :=
  have hfile := sample_inBounds (by decide) wrapModel_opens
  mapped_serves O hfile.1 wrapModel_sized hfile.2

/-- One layer with one head, all of width 32. -/
structure OneHead (m : TqModel) : Prop where
  dim : m.dim = 32
  hiddenDim : m.hiddenDim = 32
  nLayers : m.nLayers = 1
  nHeads : m.nHeads = 1
  headSize : m.headSize = 32
  kvDim : m.kvDim = 32

theorem wrapModel_oneHead : OneHead wrapModel := by
  constructor
  all_goals decide +kernel

/-! ### Where its buffers are -/

/-- A runtime whose caches have room for two positions. -/
structure Wrapped (rt : TqRuntime) : Prop where
  init : tqRuntimeInit wrapModel (2 ^ 25 + 2 : Nat) 0 wrapFast wrapCache = .ok rt
  maxSeq : rt.maxSeq = 2 ^ 25 + 2
  kvDtype : rt.kvDtype = .f32
  cache : rt.cache = [0, 256]

/-- **Nothing is refused.** -/
theorem wrapModel_init : ∃ rt, Wrapped rt := by
  have hall : (tqRuntimeInit wrapModel (2 ^ 25 + 2 : Nat) 0 wrapFast wrapCache).toOption.map
      (fun rt => (rt.maxSeq, rt.kvDtype, rt.cache)) = some (2 ^ 25 + 2, TqKv.f32, [0, 256]) := by
      decide +kernel
  cases hrt : tqRuntimeInit wrapModel (2 ^ 25 + 2 : Nat) 0 wrapFast wrapCache with
  | ok rt =>
      rw [hrt] at hall
      obtain ⟨hseq, hrest⟩ := Prod.mk.inj (Option.some.inj hall)
      obtain ⟨hkv, hcache⟩ := Prod.mk.inj hrest
      exact ⟨rt, hrt, hseq, hkv, hcache⟩
  | error rc =>
      rw [hrt] at hall
      cases hall

theorem wrap_inMemory : wrapFast.InMemory ∧ wrapCache.InMemory :=
  ⟨⟨by decide, by decide⟩, by decide, by decide⟩

theorem wrap_apart : Apart wrapFast wrapCache := .inl (by decide)

/-- The runtime, as one for the positions that it has room for. -/
def TqRuntime.short (rt : TqRuntime) : TqRuntime := { rt with maxSeq := 2 }

/-- With room for more positions an element stays in its buffer. -/
theorem TqLoc.Fits.longer {m : TqModel} {short long : Nat} (hle : short ≤ long)
    {cs : List Nat} {l : TqLoc} (h : l.Fits (tqFastSizes m short) cs) :
    l.Fits (tqFastSizes m long) cs := by
  cases l with
  | f b i =>
      cases b with
      | att =>
          obtain ⟨n, hn, hfit⟩ := h
          cases hn
          exact ⟨_, rfl, hfit.trans (Nat.mul_le_mul_right 4 (Nat.mul_le_mul_left m.nHeads hle))⟩
      | _ => exact h
  | i8 b i =>
      cases b with
      | kCache => exact h
      | vCache => exact h
  | blk b i =>
      cases b with
      | xq => exact h
      | hq => exact h

/-- One group of rows is where it was. -/
theorem relay_group {long short w i : Nat} (h : i < short * w) : relay long short w i = i := by
  have hrow : i / w < short := Nat.div_lt_of_lt_mul (Nat.mul_comm short w ▸ h)
  unfold relay
  rw [Nat.div_eq_of_lt hrow, Nat.mod_eq_of_lt hrow, Nat.zero_mul, Nat.zero_add, Nat.div_add_mod']

theorem OneHead.place {m : TqModel} (hone : OneHead m) {rt : TqRuntime} {l : TqLoc}
    (hl : l ∈ live m rt) (hkv : rt.kvDtype = .f32) (long : Nat) : l.place m long rt.maxSeq = l := by
  have hcache : ∀ {i}, i < kvElements m rt .f32 m.kvDim → relay long rt.maxSeq m.kvDim i =
      i := fun hi => by
    have hi := (kvElements_pos hi).2
    rw [hone.nLayers, Nat.one_mul] at hi
    exact relay_group hi
  have hbytes : ∀ {w i}, ¬ i < kvElements m rt .q8 w := fun hi => by
    cases hkv.symm.trans (kvElements_pos hi).1
  cases l with
  | f b i =>
      cases b with
      | att =>
          have hl : i < m.nHeads * rt.maxSeq := hl
          rw [hone.nHeads, Nat.mul_comm] at hl
          exact congrArg (TqLoc.f .att) (relay_group hl)
      | kCache => exact congrArg (TqLoc.f .kCache) (hcache hl)
      | vCache => exact congrArg (TqLoc.f .vCache) (hcache hl)
      | kScale => exact absurd hl hbytes
      | vScale => exact absurd hl hbytes
      | _ => rfl
  | i8 b i => exact absurd hl hbytes
  | blk b i => rfl

/-- A key has a mark: its first value is a difference. -/
theorem OneHead.rope_key {m : TqModel} (hone : OneHead m) {M : Type} [TqMemory Bool M]
    {A : Set TqLoc} (hlaw : Lawful M A) (hkb : ∀ i < 32, .f .kb i ∈ A) (mem : M) :
    TqMemory.f (tqRopeApply markOps m .kb m.kvDim mem) .kb 0 = true := by
  have hput : ∀ (mem : M) {i}, 0 < i → i < 32 →
      ∀ v, TqMemory.f (TqMemory.put mem (.f .kb i) v) .kb 0 =
      TqMemory.f mem .kb 0 := fun mem i hi hlt v =>
    hlaw.other mem _ (hkb i hlt) _ (hkb 0 (by decide)) (fun heq => by cases heq; cases hi) v
  have hpair : ∀ i < 16, ∀ mem : M, i = 0 ∨ TqMemory.f mem .kb 0 = true →
      TqMemory.f (tqRotatePair markOps .kb (0 * 32) i mem) .kb 0 = true := by
    intro i hi mem hmem
    unfold tqRotatePair
    rw [Nat.zero_mul, Nat.zero_add]
    refine (hput _ (by omega) (by omega) _).trans ?_
    rcases Nat.eq_zero_or_pos i with rfl | hpos
    · exact hlaw.same mem _ (hkb 0 (by decide)) true
    · exact (hput _ (by omega) (by omega) _).trans (hmem.resolve_left hpos.ne')
  unfold tqRopeApply
  rw [hone.kvDim, hone.headSize]
  refine (forUp_inv (n := 16) (I := fun i (mem : M) => i = 0 ∨ TqMemory.f mem .kb 0 = true)
    (.inl rfl) fun i hi mem hmem =>
    .inr (hpair i hi mem hmem)).resolve_left (by decide)

/-- Its buffers, as bytes. -/
abbrev WrapMem (rt : TqRuntime) : Type :=
  TqFlat (TqCodec.tags markOps) (tqLayout wrapFast wrapCache rt)

section Wrapped
variable {rt : TqRuntime} (h : Wrapped rt)
include h

/-- The buffers, with the sizes that the caches have. -/
theorem Wrapped.carved :
    Carved wrapFast wrapCache rt (tqFastSizes wrapModel (2 ^ 25 + 2)) [256, 256] := by
  obtain ⟨-, -, hfast, -⟩ := tqRuntimeInit_ok h.init
  rw [h.maxSeq] at hfast
  refine .of_noWrap wrap_inMemory wrap_apart hfast ?_ ?_ ?_
  · rw [h.cache]
    decide
  · show top _ _ < _
    decide +kernel
  · show top _ _ < _
    decide +kernel

/-- **Two positions** share no byte. -/
theorem Wrapped.alongside {F : Type} (c : TqCodec F) :
    Alongside (TqFlat c (tqLayout wrapFast wrapCache rt)) wrapModel rt rt.short := by
  have hsizes : tqCacheSizes wrapModel 2 .f32 = [256, 256] := by decide +kernel
  have hle : rt.short.maxSeq ≤ rt.maxSeq := h.maxSeq ▸ (by decide : 2 ≤ 2 ^ 25 + 2)
  have hat : ∀ l ∈ live wrapModel rt.short, locAt rt.kvDtype l.slot l.index = l := fun l hl =>
    @locAt_slot wrapModel rt.short l hl
  refine ⟨rfl, wrapModel_sized, ⟨Nat.two_pos, hle⟩, (h.carved.lawful (fun l hl => ?_) hat).mono ?_⟩
  · have hfits := live_fits hl
    rw [show rt.short.kvDtype = .f32 from h.kvDtype, show rt.short.maxSeq = 2 from rfl,
      hsizes] at hfits
    exact hfits.longer (by decide)
  · rintro _ ⟨l, hl, rfl⟩
    rw [wrapModel_oneHead.place hl h.kvDtype]
    exact hl

/-- The first rows of the keys. -/
theorem Wrapped.key_address {i : Nat} (hi : i < 96) :
    tqLayout wrapFast wrapCache rt (.f .kCache i) = 0x70000000 + i * 4 := by
  show (0x70000000 + rt.cache.getD 0 0 + i * 4) % 2 ^ 32 = _
  rw [h.cache]
  exact Nat.mod_eq_of_lt (by simp only [List.getD_cons_zero]; omega)

theorem Wrapped.value_address {i : Nat} (hi : i < 96) :
    tqLayout wrapFast wrapCache rt (.f .vCache i) = 0x70000100 + i * 4 := by
  show (0x70000000 + rt.cache.getD 1 0 + i * 4) % 2 ^ 32 = _
  rw [h.cache]
  exact Nat.mod_eq_of_lt (by simp only [List.getD_cons_succ, List.getD_cons_zero]; omega)

/-- **The third key** begins where the first value does. -/
theorem Wrapped.meet :
    tqLayout wrapFast wrapCache rt (.f .kCache 64) =
      tqLayout wrapFast wrapCache rt (.f .vCache 0) := by
  rw [h.key_address (by decide), h.value_address (by decide)]

section Spared
variable {F : Type} {c : TqCodec F}

/-- No activation lies there. -/
theorem Wrapped.fast_spared :
    live wrapModel rt ∩ activations ⊆ Spared (TqFlat c (tqLayout wrapFast wrapCache rt))
      (.f .kCache 64) := by
  rintro l ⟨hl, hact⟩
  refine spared_of_disjoint ?_
  obtain ⟨k, hslot⟩ : ∃ k, l.slot = .inl k := by
    cases l with
    | f b i => cases b <;> first | exact ⟨_, rfl⟩ | exact absurd hact id
    | i8 b i => exact absurd hact id
    | blk b i => cases b <;> exact ⟨_, rfl⟩
  have hfits := live_fits hl
  unfold TqLoc.Fits at hfits
  rw [hslot, h.maxSeq] at hfits
  refine (Set.disjoint_of_subset_left (h.carved.fast_extent hslot hfits) ?_)
  unfold extent
  rw [h.key_address (by decide)]
  refine Set.Ico_disjoint_Ico.mpr ?_
  decide

/-- Nor do the rest of the third key and the third value. -/
theorem Wrapped.key_spared {i : Nat} (hi : 0 < i) (hlt : i < 32) :
    .f .kCache (64 + i) ∈ Spared (TqFlat c (tqLayout wrapFast wrapCache rt)) (.f .kCache 64) := by
  refine spared_of_behind ?_
  rw [h.key_address (by omega), h.key_address (by omega)]
  show 0x70000000 + 64 * 4 + 4 ≤ _
  omega

theorem Wrapped.value_spared {i : Nat} (hlt : i < 32) :
    .f .vCache (64 + i) ∈ Spared (TqFlat c (tqLayout wrapFast wrapCache rt)) (.f .kCache 64) := by
  refine spared_of_behind ?_
  rw [h.key_address (by omega), h.value_address (by omega)]
  show 0x70000000 + 64 * 4 + 4 ≤ _
  omega

end Spared

/-! ### The third call -/

section Third
variable {s s' : TqMachine (WrapMem rt)}

/-- The third key is stored. -/
theorem Wrapped.store_key (mem : WrapMem rt) (hkb : TqMemory.f mem .kb 0 = true) :
    TqMemory.f (tqKvStore markOps wrapModel rt 0 2 mem) .kCache 64 = true := by
  have hrow : kvRow rt 0 2 * wrapModel.kvDim = 64 := by
    rw [kvRow, wrapModel_oneHead.kvDim, Nat.zero_mul]
  unfold tqKvStore
  rw [hrow, h.kvDtype, wrapModel_oneHead.kvDim]
  dsimp only
  refine forUp_inv (I := fun _ (mem : WrapMem rt) => TqMemory.f mem .kCache 64 = true) ?_
    fun i hi mem hmem =>
    (h.value_spared hi mem _).trans hmem
  refine forUp_inv (n := 32) (I := fun i (mem : WrapMem rt) => if i =
    0 then TqMemory.f mem .kb 0 = true else TqMemory.f mem .kCache 64 = true) hkb
    fun i hi mem hmem => ?_
  rw [if_neg (Nat.succ_ne_zero i)]
  rcases Nat.eq_zero_or_pos i with rfl | hpos
  · exact (@ByteMemory.read_write _ _ _ (TqCodec.tags markOps) mem .f _ _).trans hmem
  · rw [if_neg hpos.ne'] at hmem
    exact (h.key_spared hpos hi mem _).trans hmem

/-- **The third call** leaves the first value of its key. -/
theorem Wrapped.third_key (hrun : (tqForward markOps wrapStore wrapModel rt 0 2).exec s =
    (.ok (), s')) :
    TqMemory.f s'.mem .kCache 64 = true := by
  have hm := wrapModel_sized
  have hone := wrapModel_oneHead
  have hspared := @Wrapped.fast_spared rt h _ (TqCodec.tags markOps)
  have hbuf : ∀ b : TqBuf, (∀ i, .f b i ∈ activations) → ∀ i < b.elements wrapModel rt,
      .f b i ∈ Spared (WrapMem rt) (.f .kCache 64) := fun b hb i hi => hspared ⟨hi, hb i⟩
  have hpos : 2 < rt.maxSeq := h.maxSeq ▸ (by decide)
  unfold tqForward at hrun
  rw [if_neg (by decide +kernel), if_neg (by omega)] at hrun
  unfold tqForwardAt at hrun
  dsimp only at hrun
  obtain ⟨_, s₁, -, hrun⟩ := exec_bind_eq_ok hrun
  obtain ⟨_, s₂, -, hrun⟩ := exec_bind_eq_ok hrun
  obtain ⟨_, s₃, hlayers, hrun⟩ := exec_bind_eq_ok hrun
  -- nothing behind the layers writes to the cache
  refine (Spares.ok ((tqNorm_spares markOps _ (hbuf .x fun _ => trivial) _ _ _).bind fun _ =>
    (quantize_spares markOps hspared .x rfl).bind fun _ =>
    tqMatvec_spares markOps _ (hbuf .logits fun _ => trivial) _ _ _ _) hrun).trans ?_
  rw [hone.nLayers] at hlayers
  have hround := exec_forUpTo_ok hlayers 0 Nat.one_pos
  rw [Nat.zero_add, hlayers] at hround
  obtain ⟨_, s₄, hattend, hffn⟩ := exec_bind_eq_ok hround
  refine (Spares.ok (tqFeedForward_spares markOps wrapStore hspared 0) hffn).trans ?_
  unfold tqAttention at hattend
  dsimp only at hattend
  obtain ⟨_, s₅, -, hattend⟩ := exec_bind_eq_ok hattend
  obtain ⟨_, s₆, -, hattend⟩ := exec_bind_eq_ok hattend
  obtain ⟨_, s₇, -, hattend⟩ := exec_bind_eq_ok hattend
  obtain ⟨_, s₈, -, hattend⟩ := exec_bind_eq_ok hattend
  obtain ⟨_, s₉, -, hattend⟩ := exec_bind_eq_ok hattend
  obtain ⟨_, s₁₀, -, hattend⟩ := exec_bind_eq_ok hattend
  obtain ⟨_, s₁₁, hrope, hattend⟩ := exec_bind_eq_ok hattend
  obtain ⟨_, s₁₂, hstore, hattend⟩ := exec_bind_eq_ok hattend
  refine (Spares.ok ((attendHeads_spares markOps hspared hm 0 hpos _).bind fun _ =>
    (quantize_spares markOps hspared .xb rfl).bind fun _ =>
    (tqMatvec_spares markOps _ (hbuf .xb2 fun _ => trivial) _ _ _ _).bind fun _ =>
    onMem_spares (tqAddInto_leaves markOps (hbuf .x fun _ => trivial) .xb2)) hattend).trans ?_
  cases hstore
  cases hrope
  refine h.store_key _ (hone.rope_key (h.alongside _).moves.lawful (fun i hi => ?_) _)
  refine ⟨.f .kb i, ?_, rfl⟩
  show i < wrapModel.kvDim
  rw [hone.kvDim]
  exact hi

end Third

end Wrapped

/-! ### Position 1, before and after -/

/-- A token of zero weights has no mark. -/
theorem wrap_embedding : ¬ Marked 32 (embedding markOps wrapImage wrapModel 0) := by
  rintro ⟨i, hi, hx⟩
  have hall : ∀ i < 32, embedding markOps wrapImage wrapModel 0 i = false := by decide +kernel
  rw [hall i hi] at hx
  cases hx

/-- Nor have the logits of such tokens. -/
theorem wrap_answers {tokens : Nat → Int} (htokens : ∀ t, tokens t = 0) (pos r : Nat) :
    (transformer markOps wrapImage wrapModel .f32).answers tokens pos r = false := by
  have hone := wrapModel_oneHead
  have hembed : ∀ t, (transformer markOps wrapImage wrapModel .f32).embed (tokens t) =
      embedding markOps wrapImage wrapModel 0 := by
    intro t
    rw [htokens t]
    exact congrArg (embedding markOps wrapImage wrapModel) Int.toNat_zero
  show (transformer markOps wrapImage wrapModel .f32).answer
    ((transformer markOps wrapImage wrapModel .f32).hidden tokens wrapModel.nLayers pos) r = false
  rw [hone.nLayers, Causal.Net.hidden]
  refine answer_unmarked wrapImage hone.dim hone.hiddenDim ?_ (fun t i => ?_) r
  · rw [Causal.Net.hidden, hembed]
    exact wrap_embedding
  · show project markOps wrapImage wrapModel (wrapModel.layers 0 .wv) wrapModel.dim _ i = false
    rw [hone.dim, Causal.Net.hidden, hembed]
    exact project_unmarked wrapImage _ i wrap_embedding

section Runs
variable {rt : TqRuntime} (h : Wrapped rt) (s : TqMachine (WrapMem rt))
include h

/-- Tokens that the short context has room for are seen as by the network. -/
theorem Wrapped.fresh {tokens : List Int} (htokens : ∀ token ∈ tokens, token = 0)
    (hlen : tokens.length ≤ 2) :
    logitsSeen wrapModel.vocabSize (tqFeed markOps wrapStore wrapModel rt (callsFrom 0 tokens) s) =
      networkSeen markOps wrapImage wrapModel .f32 tokens := by
  have hfile := sample_inBounds (by decide) wrapModel_opens
  rw [logitsSeen_shorter markOps wrapStore (h.alongside _) hlen s s.named, ← h.kvDtype]
  refine logitsSeen_network markOps hfile.1 wrapModel_sized hfile.2
    (fun token htoken => ?_) hlen s.named
  rw [htokens token htoken]
  decide +kernel

/-- **Back at position 1** the mark of the third key is read as a value. -/
theorem Wrapped.restarted (hs : TqMemory.f s.mem .kCache 64 = true) :
    logitsSeen wrapModel.vocabSize (tqFeed markOps wrapStore wrapModel rt (callsFrom 1 [0]) s) =
      [.ok ((List.range wrapModel.vocabSize).map fun _ => true)] := by
  have hone := wrapModel_oneHead
  have hfile := sample_inBounds (by decide) wrapModel_opens
  have hvalue : TqMemory.f s.mem .vCache 0 = true := by
    rw [← hs]
    exact congrArg ((TqCodec.tags markOps).read s.mem .f) h.meet.symm
  rw [logitsSeen_relaid markOps wrapStore (h.alongside _) [0] 1
    (t := ⟨relaid wrapModel rt.maxSeq 2 s.mem, s.bytesRead, s.tile⟩) (Nat.le_refl 2) fun _ _ => rfl]
  generalize hmem : (relaid wrapModel rt.maxSeq 2 s.mem : TqMem Bool) = mem
  have hfirst : mem.f .vCache 0 = true := by
    rw [← hmem, ← hvalue]
    exact congrArg (TqMemory.f s.mem .vCache) (relay_group (by rw [hone.kvDim]; decide))
  obtain ⟨_, s', hrun⟩ := (wrapModel_serves markOps).returns rt.short 0 (1 : Nat)
    (by decide +kernel)
    ⟨by decide, Int.ofNat_lt.mpr Nat.one_lt_two⟩ ⟨mem, s.bytesRead, s.tile⟩
  have hin : ¬ (((1 : Nat) : Int) < 0 ∨ ((1 : Nat) : Int) ≥ rt.short.maxSeq) :=
    not_or.mpr ⟨by decide, Int.not_le.mpr (Int.ofNat_lt.mpr Nat.one_lt_two)⟩
  have hstep := hrun
  unfold tqForward at hstep
  rw [if_neg (by decide +kernel), if_neg hin, Int.toNat_natCast] at hstep
  -- the row of position 0 is what the cache has there now
  obtain ⟨rows, hown, hrows⟩ : ∃ rows : Nat → KvRow Bool,
      rows 1 = kvRowOf markOps wrapImage wrapModel 0 1 (embedding markOps wrapImage wrapModel 0) ∧
      rows 0 = ⟨mem.f .kCache, mem.f .vCache⟩ := ⟨fun t => if t = 1 then _ else _, if_pos rfl,
        if_neg (by decide)⟩
  have hlogits := tqForwardAt_rows wrapModel_sized hone.nLayers Nat.one_lt_two
    (by decide +kernel) hstep hown fun t ht => by
      obtain rfl := Nat.lt_one_iff.mp ht
      rw [hrows]
      unfold RowHeld
      rw [show rt.short.kvDtype = .f32 from h.kvDtype]
      intro i _
      rw [kvRow, Nat.zero_mul, Nat.zero_mul, Nat.zero_add]
      exact ⟨rfl, rfl⟩
  rw [callsFrom, callsFrom, tqFeed, tqFeed, hrun]
  refine congrArg (fun l => [Except.ok l]) (List.map_congr_left fun r hr => ?_)
  refine (hlogits r (List.mem_range.mp hr)).trans ?_
  rw [show rt.short.kvDtype = .f32 from h.kvDtype]
  refine answer_of_value wrapImage hone.dim hone.hiddenDim (Nat.zero_le 1) ?_ r
  rw [hrows]
  exact hfirst

/-- **Three calls, and one back at position 1.** -/
theorem Wrapped.differs :
    (∀ r ∈ tqFeed markOps wrapStore wrapModel rt (callsFrom 0 [0, 0, 0]) s, r.1 = .ok ()) ∧
    logitsSeen wrapModel.vocabSize (tqFeed markOps wrapStore wrapModel rt (callsFrom 0 [0, 0]) s) ≠
      logitsSeen wrapModel.vocabSize (tqFeed markOps wrapStore wrapModel rt (callsFrom 0 [0]) s) ++
      logitsSeen wrapModel.vocabSize (tqFeed markOps wrapStore wrapModel rt (callsFrom 1 [0])
        (machineAfter markOps wrapStore wrapModel rt (callsFrom 0 [0, 0, 0]) s)) := by
  have hstep : ∀ pos : Nat, pos ≤ 2 → ∀ s : TqMachine (WrapMem rt), ∃ s',
      (tqForward markOps wrapStore wrapModel rt 0 pos).exec s = (.ok (), s') := fun pos hpos s => by
    have hroom : ((pos : Nat) : Int) < rt.maxSeq := Int.ofNat_lt.mpr (h.maxSeq ▸ (by omega))
    obtain ⟨_, s', hrun⟩ := (wrapModel_serves markOps).returns rt 0 pos (by decide +kernel)
      ⟨Int.natCast_nonneg pos, hroom⟩ s
    exact ⟨s', hrun⟩
  obtain ⟨s₁, h₁⟩ := hstep 0 (by decide) s
  obtain ⟨s₂, h₂⟩ := hstep 1 (by decide) s₁
  obtain ⟨s₃, h₃⟩ := hstep 2 (by decide) s₂
  have hlast : machineAfter markOps wrapStore wrapModel rt (callsFrom 0 [0, 0, 0]) s = s₃ := by
    simp only [callsFrom, machineAfter, Nat.zero_add, Nat.reduceAdd, h₁, h₂, h₃]
  constructor
  · simp only [callsFrom, tqFeed, Nat.zero_add, Nat.reduceAdd, h₁, h₂, h₃, List.mem_cons,
      List.not_mem_nil, or_false]
    rintro r (rfl | rfl | rfl) <;> rfl
  · have hzero : ∀ tokens : List Int, (∀ token ∈ tokens, token = 0) → ∀ t, tokens.getD t 0 = 0 := by
      intro tokens htokens t
      rw [List.getD_eq_getElem?_getD]
      cases hget : tokens[t]? with
      | none => rfl
      | some token => exact htokens token (List.mem_of_getElem? hget)
    rw [hlast, h.restarted s₃ (h.third_key h₃), h.fresh s (by decide) (by decide),
      h.fresh s (by decide) (by decide)]
    intro heq
    obtain ⟨-, hsecond⟩ := List.cons.inj heq
    have hlogits := Except.ok.inj (List.cons.inj hsecond).1
    have hr := List.map_inj_left.mp hlogits 0 (List.mem_range.mpr (by decide +kernel))
    rw [wrap_answers (hzero _ (by decide))] at hr
    cases hr

end Runs

end TinyLlm
