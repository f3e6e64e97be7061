/-
# `TinyLlm.Forward.Decode` — the decode loop computes the transformer

The parts of `TinyLlm.Forward.Values` put together along `tq_forward`.  A part
that reads the store is an operation on memory as well, on the bytes that a
mapped image has there (`Does`).  Between two parts a buffer is what it was, by
their footprints.

A layer is then a `LayerStep` of `transformer`: from its input and the rows
behind the position it makes the output and one row more.  `Net.pass` takes the
layers together, and the tokens follow one after the other (`decode_run`).
-/
import TinyLlm.Ac.Delta
import TinyLlm.Forward.Engine
import TinyLlm.Forward.Values

namespace TinyLlm

open Loop Bytes Footprints Relational Causal

/-! ## Parts that read the store -/

section Store
variable {F : Type} {image : List UInt8} {bytes : UInt64}

/-- Where the program returns, it has done `op` to the memory. -/
def Does (p : Tq (TqMachine (TqMem F)) Unit) (op : TqMem F → TqMem F) : Prop :=
  ∀ s s', p.exec s = (.ok (), s') → s'.mem = op s.mem

theorem onMem_does (op : TqMem F → TqMem F) : Does (onMem op) op := by
  intro s s' h
  cases h
  rfl

/-- Bytes of a mapped image. -/
theorem viewed_does (off n k : Nat) (rc : TqStatus) {f : List UInt8 → Tq (TqMachine (TqMem F)) Unit}
    {op : TqMem F → TqMem F} (hf : Does (f (slice image off k)) op) :
    Does (onTile (viewOr (tqStoreInitMapped image bytes) off n rc) >>=
      fun v => onTile (deref v k) >>= f) op := by
  intro s s' h
  rw [← bind_assoc] at h
  obtain ⟨bs, s₁, hread, hrest⟩ := exec_bind_eq_ok h
  obtain ⟨t, hexec⟩ := viewed_exec (tqStoreInitMapped image bytes) off n k rc s
  rw [hread] at hexec
  unfold TqStore.fetch at hexec
  by_cases hend : (off + n) % 2 ^ 64 > (tqStoreInitMapped image bytes).bytes.toNat
  · rw [if_pos hend] at hexec
    cases hexec
  · rw [if_neg hend] at hexec
    dsimp only [tqStoreInitMapped] at hexec
    split at hexec
    · cases hexec
      have hdone := hf _ _ hrest
      exact hdone
    · cases hexec

variable (O : FloatOps F)

theorem tqNorm_does (out src : TqBuf) (wOff n : Nat) (eps : F) :
    Does (tqNorm O (tqStoreInitMapped image bytes) out src wOff n eps)
      (tqRmsnorm O out src (vectorAt O image wOff) n eps) := by
  unfold tqNorm
  refine viewed_does _ _ _ _ ?_
  have hw : tqRmsnorm O out src (floatsAt O (slice image wOff (n * 4))) n eps =
      tqRmsnorm O out src (vectorAt O image wOff) n eps := by
    funext mem
    refine forUp_congr _ fun i hi mem' => ?_
    have hfloat : floatsAt O (slice image wOff (n * 4)) i = vectorAt O image wOff i :=
      congrArg (fun v => O.ofBits (UInt32.ofNat v)) (leAt_slice (by omega))
    rw [hfloat]
  rw [hw]
  exact onMem_does _

theorem tqMatvec_does (out : TqBuf) (wOff n d : Nat) {dtype : Nat} (acts : TqQuant)
    (hdtype : dtype = tqDtQ40 ∨ dtype = tqDtQ80) :
    Does (tqMatvec O (tqStoreInitMapped image bytes) out wOff dtype n d acts)
      (tqDotRows O out dtype (tqDtypeNbytes dtype n) (n / tqGroupSize) acts
        (slice image wOff (tqDtypeNbytes dtype n * d)) 0 d) := by
  intro s s' h
  unfold tqMatvec at h
  dsimp only [tqStoreInitMapped] at h
  split at h
  · cases h
  obtain ⟨_, s₁, hcount, h⟩ := exec_bind_eq_ok h
  cases hcount
  by_cases hend : (wOff + tqDtypeNbytes dtype n * d) % 2 ^ 64 > bytes.toNat
  · simp only [hend, if_true] at h
    cases h
  have hknown : ¬ (dtype ≠ tqDtQ40 ∧ dtype ≠ tqDtQ80) := by
    rintro ⟨h40, h80⟩
    exact hdtype.elim h40 h80
  simp only [hend, hknown, if_false] at h
  obtain ⟨ws, s₂, hread, h⟩ := exec_bind_eq_ok h
  rw [onTile_exec, behind_direct] at hread
  split at hread
  · cases hread
    cases h
    rfl
  · cases hread

/-- A product of a matrix in the image. -/
theorem tqMatvec_holds {m : TqModel} (hm : m.Sized) {out : TqBuf} {wOff n d : Nat} {acts : TqQuant}
    {s s' : TqMachine (TqMem F)}
    (h : (tqMatvec O (tqStoreInitMapped image bytes) out wOff m.qtype n d acts).exec s =
    (.ok (), s')) {x : Nat → F} (hx : s.mem.HoldsBlocks acts (n / tqGroupSize) (quantized O x)) :
    s'.mem.Holds out d (project O image m wOff n x) := by
  rw [tqMatvec_does O out wOff n d acts hm.quantized s s' h]
  intro r hr
  refine (tqDotRows_holds hx r hr).trans ?_
  have hend := Nat.mul_le_mul_right (tqDtypeNbytes m.qtype n) (Nat.succ_le_of_lt hr)
  rw [Nat.succ_mul, Nat.mul_comm d] at hend
  dsimp only
  rw [slice_slice hend, Nat.mul_comm r]
  rfl

/-- The row of a token. -/
theorem tqRowToFloat_holds {m : TqModel} (hm : m.Sized) {token : Nat}
    (hin : m.tokEmb + tqDtypeNbytes m.qtype m.dim * token < 2 ^ 64) {out : TqBuf}
    {s s' : TqMachine (TqMem F)}
    (h : (tqRowToFloat O (tqStoreInitMapped image bytes) m.tokEmb m.qtype m.dim token out).exec s =
    (.ok (), s')) :
    s'.mem.Holds out m.dim (embedding O image m token) := by
  unfold tqRowToFloat at h
  dsimp only at h
  split at h
  · cases h
  rw [Nat.mod_eq_of_lt hin] at h
  have hdone := @viewed_does F image bytes (m.tokEmb + tqDtypeNbytes m.qtype m.dim * token) _
    (tqDtypeNbytes m.qtype m.dim) .errIo _ _ (onMem_does (tqDequantizeMem O out
      (slice image (m.tokEmb + tqDtypeNbytes m.qtype m.dim * token)
        (tqDtypeNbytes m.qtype m.dim)) m.qtype
      m.dim)) s s' h
  intro i hi
  rw [hdone, tqDequantizeMem_eq, setBuf_same, tqDequantize_apply]
  have hlen : dequantLen m.qtype m.dim = m.dim := by
    rw [dequantLen, if_pos hm.quantized.symm, Nat.div_mul_cancel hm.dim_blocks]
  rw [hlen, if_pos hi]
  rfl

end Store

/-! ## What is kept -/

section Kept
variable {F : Type} {O : FloatOps F} {m : TqModel} {rt : TqRuntime} {mem mem' : TqMem F}
    {W : Set TqLoc}

theorem TqMem.HoldsBlocks.kept {b : TqQuant} {n : Nat} {v : Nat → TqBlockQ80}
    (h : mem.HoldsBlocks b n v) (hkeep : ∀ l ∉ W, mem' l = mem l) (hW : ∀ i, TqLoc.blk b i ∉ W) :
    mem'.HoldsBlocks b n v :=
  fun i hi => (hkeep _ (hW i)).trans (h i hi)

theorem blk_not_span (b : TqQuant) (b' : TqBuf) (a n i : Nat) : TqLoc.blk b i ∉ span b' a n := by
  rintro ⟨j, _, heq⟩
  cases heq

/-- The activations that a layer makes for itself. -/
def scratch : Set TqLoc := {l | l ∈ activations ∧ match l with
  | .f .x _ => False
  | .f .ropeCos _ => False
  | .f .ropeSin _ => False
  | _ => True}

theorem span_scratch {b : TqBuf} {a n : Nat} (hb : ∀ i, TqLoc.f b i ∈ scratch) :
    span b a n ⊆ scratch := by
  rintro l ⟨i, -, rfl⟩
  exact hb (a + i)

theorem blocks_scratch (b : TqQuant) (n : Nat) : blocks b n ⊆ scratch := by
  rintro l ⟨i, -, rfl⟩
  exact ⟨trivial, trivial⟩

/-- What runs through the parts of a layer: its value, the rotation of the
position, and the rows below `n`. -/
structure Through (O : FloatOps F) (m : TqModel) (rt : TqRuntime) (layer pos n : Nat) (x : Nat → F)
    (rows : Nat → KvRow F) (mem : TqMem F) : Prop where
  value : mem.Holds .x m.dim x
  rope : RopeHeld O m pos mem
  rows : ∀ t < n, RowHeld O m rt mem layer t (rows t)

variable {layer pos n : Nat} {x : Nat → F} {rows : Nat → KvRow F}

theorem RopeHeld.kept (h : RopeHeld O m pos mem) (hkeep : ∀ l ∉ W, mem' l = mem l)
    (hW : ∀ i, TqLoc.f .ropeCos i ∉ W ∧ TqLoc.f .ropeSin i ∉ W) : RopeHeld O m pos mem' :=
  ⟨fun i hi => (hkeep _ (hW i).1).trans (h.cos i hi),
    fun i hi => (hkeep _ (hW i).2).trans (h.sin i hi)⟩

/-- A part that works on scratch buffers. -/
theorem Through.after (hm : m.Sized) {s s' : TqMachine (TqMem F)}
    (h : Through O m rt layer pos n x rows s.mem) {R : Set TqLoc}
    {p : Tq (TqMachine (TqMem F)) Unit} (hp : Touches TqMachine.mem R W p)
    (hrun : p.exec s = (.ok (), s')) (hW : W ⊆ scratch) :
    Through O m rt layer pos n x rows s'.mem := by
  have hkeep := hp.exec_frame hrun
  refine ⟨h.value.kept hkeep fun i hi => (hW hi).2,
    h.rope.kept hkeep fun i => ⟨fun hi => (hW hi).2, fun hi => (hW hi).2⟩,
    fun t ht => (h.rows t ht).agree hm.kv fun l hl => ?_⟩
  exact hkeep l fun hw => activations_not_cache m rt (hW hw).1 layer t hl

/-- What a half of a layer ends with. -/
theorem Through.add (hm : m.Sized) {s s' : TqMachine (TqMem F)}
    (h : Through O m rt layer pos n x rows s.mem) {y : Nat → F} (hy : s.mem.Holds .xb2 m.dim y)
    (hrun : (onMem (tqAddInto O .x .xb2 m.dim)).exec s = (.ok (), s')) :
    Through O m rt layer pos n (fun i => O.add (x i) (y i)) rows s'.mem := by
  have hkeep := (onMem_touches (tqAddInto_footprint O .x .xb2 m.dim)).exec_frame hrun
  refine ⟨?_, h.rope.kept hkeep fun i => ⟨f_not_span (by decide) _ _ i,
    f_not_span (by decide) _ _ i⟩,
    fun t ht => (h.rows t ht).agree hm.kv fun l hl => ?_⟩
  · rw [onMem_does _ s s' hrun]
    exact tqAddInto_holds (by decide) h.value hy
  · exact hkeep l
      fun hw => activations_not_cache m rt (span_activations (b := .x) (fun _ => trivial) hw)
      layer t hl

end Kept

/-! ## Layers -/

section Layers
variable {F : Type} {O : FloatOps F} {image : List UInt8} {bytes : UInt64} {m : TqModel}
    {rt : TqRuntime}
variable {s s' : TqMachine (TqMem F)} {x : Nat → F}

/-- A norm whose weights are in the image. -/
theorem tqNorm_holds {out : TqBuf} {wOff : Nat}
    (h : (tqNorm O (tqStoreInitMapped image bytes) out .x wOff m.dim (normEps O m)).exec s =
      (.ok (), s'))
    (hx : s.mem.Holds .x m.dim x) : s'.mem.Holds out m.dim (normedAt O image m wOff x) := by
  rw [tqNorm_does O out .x wOff m.dim _ s s' h]
  exact tqRmsnorm_holds hx

theorem quantize_holds {src : TqBuf} {acts : TqQuant} {n : Nat}
    (h : (onMem (tqQuantizeMem O src acts n)).exec s = (.ok (), s')) (hx : s.mem.Holds src n x) :
    s'.mem.HoldsBlocks acts (n / tqGroupSize) (quantized O x) := by
  rw [onMem_does _ s s' h]
  exact tqQuantizeMem_holds hx

theorem rope_holds (hm : m.Sized) {v : TqBuf} (hcos : v ≠ .ropeCos)
    (hsin : v ≠ .ropeSin) {n pos : Nat} (hn : m.headSize ∣ n)
    (h : (onMem (tqRopeApply O m v n)).exec s = (.ok (), s')) (htab : RopeHeld O m pos s.mem)
    (hx : s.mem.Holds v n x) : s'.mem.Holds v n (roped O m pos x) := by
  obtain ⟨k, rfl⟩ := hn
  rw [Nat.mul_comm] at h hx ⊢
  rw [onMem_does _ s s' h]
  exact tqRopeApply_holds hcos hsin hm.headSize_pos htab hx

/-- The feed-forward half of a layer. -/
theorem tqFeedForward_computes (hm : m.Sized) {l pos n : Nat} {rows : Nat → KvRow F}
    (h : (tqFeedForward O (tqStoreInitMapped image bytes) m l).exec s = (.ok (), s'))
    (hx : Through O m rt l pos n x rows s.mem) :
    Through O m rt l pos n (feedForwardOut O image m l x) rows s'.mem := by
  have hmat := fun out wOff n d acts =>
    tqMatvec_touches O (tqStoreInitMapped image bytes) out wOff n d acts hm.quantized
  unfold tqFeedForward at h
  dsimp only at h
  obtain ⟨_, s₁, hnorm, h⟩ := exec_bind_eq_ok h
  have hxb := tqNorm_holds hnorm hx.value
  have hx := hx.after hm (tqNorm_touches O _ .xb .x _ m.dim _) hnorm (span_scratch
    fun _ => ⟨trivial, trivial⟩)
  obtain ⟨_, s₂, hquant, h⟩ := exec_bind_eq_ok h
  have hxq := quantize_holds hquant hxb
  have hx := hx.after hm (onMem_touches (tqQuantizeMem_footprint O .xb .xq m.dim)) hquant
    (blocks_scratch _ _)
  obtain ⟨_, s₃, hw1, h⟩ := exec_bind_eq_ok h
  have hhb := tqMatvec_holds O hm hw1 hxq
  have hxq := hxq.kept ((hmat _ _ _ _ _).exec_frame hw1) (blk_not_span _ _ _ _)
  have hx := hx.after hm (hmat _ _ _ _ _) hw1 (span_scratch fun _ => ⟨trivial, trivial⟩)
  obtain ⟨_, s₄, hw3, h⟩ := exec_bind_eq_ok h
  have hhb3 := tqMatvec_holds O hm hw3 hxq
  have hhb := hhb.kept ((hmat _ _ _ _ _).exec_frame hw3) (f_not_span (by decide) _ _)
  have hx := hx.after hm (hmat _ _ _ _ _) hw3 (span_scratch fun _ => ⟨trivial, trivial⟩)
  obtain ⟨_, s₅, hglu, h⟩ := exec_bind_eq_ok h
  have hact : s₅.mem.Holds .hb m.hiddenDim _ := onMem_does _ s₄ s₅ hglu ▸ tqSwiglu_holds hhb hhb3
  have hx := hx.after hm (onMem_touches (tqSwiglu_footprint O m.hiddenDim)) hglu
    (span_scratch fun _ => ⟨trivial, trivial⟩)
  obtain ⟨_, s₆, hquant', h⟩ := exec_bind_eq_ok h
  have hhq := quantize_holds hquant' hact
  have hx := hx.after hm (onMem_touches (tqQuantizeMem_footprint O .hb .hq m.hiddenDim)) hquant'
    (blocks_scratch _ _)
  obtain ⟨_, s₇, hw2, hadd⟩ := exec_bind_eq_ok h
  have hxb2 := tqMatvec_holds O hm hw2 hhq
  exact (hx.after hm (hmat _ _ _ _ _) hw2 (span_scratch fun _ => ⟨trivial, trivial⟩)).add
    hm hxb2 hadd

/-- Rows of other positions and other layers. -/
theorem cacheRow_disjoint {loc : TqLoc} {l l' t pos : Nat} (ht : t < rt.maxSeq)
    (hpos : pos < rt.maxSeq) (hne : l' ≠ l ∨ t ≠ pos) (h : loc ∈ cacheRow m rt l' t) :
    loc ∉ cacheRow m rt l pos := by
  intro h'
  have hrows : l' * rt.maxSeq + t = l * rt.maxSeq + pos :=
    (rowOf_cacheRow rt h).symm.trans (rowOf_cacheRow rt h')
  have hmod := congrArg (· % rt.maxSeq) hrows
  have hdiv := congrArg (· / rt.maxSeq) hrows
  have hseq : 0 < rt.maxSeq := Nat.zero_lt_of_lt hpos
  simp only [Nat.mul_comm _ rt.maxSeq, Nat.mul_add_mod, Nat.mul_add_div hseq, Nat.mod_eq_of_lt ht,
    Nat.mod_eq_of_lt hpos, Nat.div_eq_of_lt ht, Nat.div_eq_of_lt hpos, Nat.add_zero] at hmod hdiv
  exact hne.elim (fun h => h hdiv) fun h => h hmod

/-- The row of the position is stored. -/
theorem Through.store (hm : m.Sized) {l pos : Nat} (hpos : pos < rt.maxSeq) {rows : Nat → KvRow F}
    (h : Through O m rt l pos pos x rows s.mem) (hkey : s.mem.Holds .kb m.kvDim (rows pos).key)
    (hvalue : s.mem.Holds .vb m.kvDim (rows pos).value)
    (hrun : (onMem (tqKvStore O m rt l pos)).exec s = (.ok (), s')) :
    Through O m rt l pos (pos + 1) x rows s'.mem := by
  have hkeep := (onMem_touches (@tqKvStore_footprint F O m rt hm.kv l pos)).exec_frame hrun
  have hact : ∀ loc ∈ activations, loc ∉ cacheRow m rt l pos :=
    fun loc hloc => activations_not_cache m rt hloc l pos
  refine ⟨h.value.kept hkeep fun i => hact _ trivial,
    h.rope.kept hkeep fun i => ⟨hact _ trivial, hact _ trivial⟩,
    fun t ht => ?_⟩
  rcases Nat.lt_succ_iff_lt_or_eq.mp ht with hlt | rfl
  · refine (h.rows t hlt).agree hm.kv fun loc hloc => hkeep loc ?_
    exact cacheRow_disjoint (hlt.trans hpos) hpos (.inr hlt.ne) hloc
  · rw [onMem_does _ s s' hrun]
    exact tqKvStore_held hm.kv hkey hvalue

theorem heads_touches (hm : m.Sized) (l pos : Nat) :
    ∃ R W, W ⊆ scratch ∧ Touches (ε := Fault) TqMachine.mem R W
    (onMem fun mem => forUp m.nHeads
      (fun h mem => tqAttendHead O m rt l pos h (invSqrtHeadSize O m) mem) mem) := by
  have hheads := @Footprint.forUp TqLoc (TqVal F) (span .q 0 m.dim ∪ cacheUpTo m rt l (pos + 1))
    (fun h mem => tqAttendHead O m rt l pos h (invSqrtHeadSize O m) mem) m.nHeads _ fun h hh =>
      (@tqAttendHead_footprint F O m rt hm l pos h hh (invSqrtHeadSize O m)).mono
        Set.subset_union_left
  refine ⟨_, _, Set.iUnion₂_subset fun h _ => ?_, onMem_touches hheads⟩
  exact Set.union_subset (span_scratch fun _ => ⟨trivial, trivial⟩) (span_scratch
    fun _ => ⟨trivial, trivial⟩)

/-- The attention half: the row of the position is stored and looked at with
those behind it. -/
theorem tqAttention_computes (hm : m.Sized) {l pos : Nat} (hpos : pos < rt.maxSeq)
    {rows : Nat → KvRow F}
    (h : (tqAttention O (tqStoreInitMapped image bytes) m rt l pos (invSqrtHeadSize O m)).exec s =
    (.ok (), s')) (hx : Through O m rt l pos pos x rows s.mem)
    (hown : rows pos = kvRowOf O image m l pos x) :
    Through O m rt l pos (pos + 1) (attentionOut O image m rt.kvDtype l pos x rows)
      rows s'.mem := by
  have hdim : m.headSize ∣ m.dim := ⟨m.nHeads, by rw [← hm.heads, Nat.mul_comm]⟩
  have hkvDim : m.headSize ∣ m.kvDim := ⟨m.nKvHeads, hm.kv⟩
  have hmat := fun out wOff n d acts =>
    tqMatvec_touches O (tqStoreInitMapped image bytes) out wOff n d acts hm.quantized
  unfold tqAttention at h
  dsimp only at h
  -- query, key and value
  obtain ⟨_, s₁, hnorm, h⟩ := exec_bind_eq_ok h
  have hxb := tqNorm_holds hnorm hx.value
  have hx := hx.after hm (tqNorm_touches O _ .xb .x _ m.dim _) hnorm (span_scratch
    fun _ => ⟨trivial, trivial⟩)
  obtain ⟨_, s₂, hquant, h⟩ := exec_bind_eq_ok h
  have hxq := quantize_holds hquant hxb
  have hx := hx.after hm (onMem_touches (tqQuantizeMem_footprint O .xb .xq m.dim)) hquant
    (blocks_scratch _ _)
  obtain ⟨_, s₃, hwq, h⟩ := exec_bind_eq_ok h
  have hq := tqMatvec_holds O hm hwq hxq
  have hxq := hxq.kept ((hmat _ _ _ _ _).exec_frame hwq) (blk_not_span _ _ _ _)
  have hx := hx.after hm (hmat _ _ _ _ _) hwq (span_scratch fun _ => ⟨trivial, trivial⟩)
  obtain ⟨_, s₄, hwk, h⟩ := exec_bind_eq_ok h
  have hkb := tqMatvec_holds O hm hwk hxq
  have hxq := hxq.kept ((hmat _ _ _ _ _).exec_frame hwk) (blk_not_span _ _ _ _)
  have hq := hq.kept ((hmat _ _ _ _ _).exec_frame hwk) (f_not_span (by decide) _ _)
  have hx := hx.after hm (hmat _ _ _ _ _) hwk (span_scratch fun _ => ⟨trivial, trivial⟩)
  obtain ⟨_, s₅, hwv, h⟩ := exec_bind_eq_ok h
  have hvb := tqMatvec_holds O hm hwv hxq
  have hq := hq.kept ((hmat _ _ _ _ _).exec_frame hwv) (f_not_span (by decide) _ _)
  have hkb := hkb.kept ((hmat _ _ _ _ _).exec_frame hwv) (f_not_span (by decide) _ _)
  have hx := hx.after hm (hmat _ _ _ _ _) hwv (span_scratch fun _ => ⟨trivial, trivial⟩)
  -- rotated
  obtain ⟨_, s₆, hropeq, h⟩ := exec_bind_eq_ok h
  have hq := rope_holds hm (by decide) (by decide) hdim hropeq hx.rope hq
  have hrotq := onMem_touches (tqRopeApply_footprint O m .q hm.headSize_pos hdim)
  have hkb := hkb.kept (hrotq.exec_frame hropeq) (f_not_span (by decide) _ _)
  have hvb := hvb.kept (hrotq.exec_frame hropeq) (f_not_span (by decide) _ _)
  have hx := hx.after hm hrotq hropeq (span_scratch fun _ => ⟨trivial, trivial⟩)
  obtain ⟨_, s₇, hropek, h⟩ := exec_bind_eq_ok h
  have hkb := rope_holds hm (by decide) (by decide) hkvDim hropek hx.rope hkb
  have hrotk := onMem_touches (tqRopeApply_footprint O m .kb hm.headSize_pos hkvDim)
  have hq := hq.kept (hrotk.exec_frame hropek) (f_not_span (by decide) _ _)
  have hvb := hvb.kept (hrotk.exec_frame hropek) (f_not_span (by decide) _ _)
  have hx := hx.after hm hrotk hropek (span_scratch fun _ => ⟨trivial, trivial⟩)
  -- stored
  obtain ⟨_, s₈, hstore, h⟩ := exec_bind_eq_ok h
  have hq := hq.kept ((onMem_touches (@tqKvStore_footprint F O m rt hm.kv l pos)).exec_frame hstore)
    fun i => activations_not_cache m rt (show TqLoc.f .q i ∈ activations from trivial) l pos
  have hx := hx.store hm hpos (hown ▸ hkb) (hown ▸ hvb) hstore
  -- looked at
  obtain ⟨_, s₉, hheads, h⟩ := exec_bind_eq_ok h
  have hxb : s₉.mem.Holds .xb m.dim _ := onMem_does _ s₈ s₉ hheads ▸
    tqAttendHeads_hold hm ⟨hq, fun t ht => hx.rows t (Nat.lt_succ_of_le ht)⟩
  obtain ⟨R, W, hW, htouch⟩ := @heads_touches F O m rt hm l pos
  have hx := hx.after hm htouch hheads hW
  -- and projected
  obtain ⟨_, s₁₀, hquant', h⟩ := exec_bind_eq_ok h
  have hxq := quantize_holds hquant' hxb
  have hx := hx.after hm (onMem_touches (tqQuantizeMem_footprint O .xb .xq m.dim)) hquant'
    (blocks_scratch _ _)
  obtain ⟨_, s₁₁, hwo, hadd⟩ := exec_bind_eq_ok h
  have hxb2 := tqMatvec_holds O hm hwo hxq
  exact (hx.after hm (hmat _ _ _ _ _) hwo (span_scratch fun _ => ⟨trivial, trivial⟩)).add
    hm hxb2 hadd

/-- **A layer** of the decode loop is a layer of the network. -/
theorem layer_step (hm : m.Sized) {l pos : Nat} (hpos : pos < rt.maxSeq)
    (h : (do
      tqAttention O (tqStoreInitMapped image bytes) m rt l pos (invSqrtHeadSize O m)
      tqFeedForward O (tqStoreInitMapped image bytes) m l : Tq (TqMachine (TqMem F)) Unit).exec s =
      (.ok (), s')) :
    (transformer O image m rt.kvDtype).LayerStep
      (fun mem x => mem.Holds .x m.dim x ∧ RopeHeld O m pos mem)
      (RowHeld O m rt) l pos s.mem s'.mem := by
  constructor
  · rintro x rows ⟨hvalue, hrope⟩ hown hrows
    obtain ⟨_, s₁, hatt, hffn⟩ := exec_bind_eq_ok h
    have hx :=
      tqFeedForward_computes hm hffn (tqAttention_computes hm hpos hatt ⟨hvalue, hrope, hrows⟩ hown)
    exact ⟨⟨hx.value, hx.rope⟩, hx.rows pos (Nat.lt_succ_self pos)⟩
  · intro l' _ t ht hne r hheld
    obtain ⟨W, -, hW, htouch⟩ := layer_touches O (tqStoreInitMapped image bytes) rt hm l pos
      (invSqrtHeadSize O m)
    refine hheld.agree hm.kv fun loc hloc => htouch.exec_frame h loc fun hw => ?_
    rcases hW hw with hact | hrow
    · exact activations_not_cache m rt hact l' t hloc
    · exact cacheRow_disjoint (Nat.lt_of_le_of_lt ht hpos) hpos hne hloc hrow

/-! ## A step -/

/-- The cache holds the rows of all positions below `n`. -/
abbrev Decoded (O : FloatOps F) (image : List UInt8) (m : TqModel) (rt : TqRuntime)
    (tokens : Nat → Int) (n : Nat) (mem : TqMem F) : Prop :=
  (transformer O image m rt.kvDtype).Holding (RowHeld O m rt) tokens n mem

/-- Activations are not in the cache. -/
theorem Decoded.kept (hm : m.Sized) {tokens : Nat → Int} {n : Nat} {mem mem' : TqMem F}
    (h : Decoded O image m rt tokens n mem) (hkeep : ∀ l ∉ activations, mem' l = mem l) :
    Decoded O image m rt tokens n mem' :=
  fun l hl t ht => (h l hl t ht).agree hm.kv fun loc hloc =>
    hkeep loc fun hact => activations_not_cache m rt hact l t hloc

/-- The loop over the layers is a pass. -/
theorem layers_compute (hm : m.Sized) {tokens : Nat → Int} {pos : Nat} (hpos : pos < rt.maxSeq)
    (h : (forUpTo m.nLayers fun l => do
      tqAttention O (tqStoreInitMapped image bytes) m rt l pos (invSqrtHeadSize O m)
      tqFeedForward O (tqStoreInitMapped image bytes) m l : Tq (TqMachine (TqMem F)) Unit).exec s =
      (.ok (), s'))
    (hx : s.mem.Holds .x m.dim (embedding O image m (tokens pos).toNat))
    (hrope : RopeHeld O m pos s.mem) (hcache : Decoded O image m rt tokens pos s.mem) :
    s'.mem.Holds .x m.dim ((transformer O image m rt.kvDtype).hidden tokens m.nLayers pos) ∧
      Decoded O image m rt tokens (pos + 1) s'.mem := by
  have hrounds := exec_forUpTo_ok h
  obtain rfl := congrArg Prod.snd h
  obtain ⟨⟨hx, -⟩, hcache⟩ := Net.pass (s := fun i => ((forUpTo i fun l => do
      tqAttention O (tqStoreInitMapped image bytes) m rt l pos (invSqrtHeadSize O m)
      tqFeedForward O (tqStoreInitMapped image bytes) m l : Tq (TqMachine (TqMem F))
      Unit).exec s).2.mem)
    (fun l hl => layer_step hm hpos (hrounds l hl)) ⟨hx, hrope⟩ hcache
  exact ⟨hx, hcache⟩

/-- **The parts of a step**: it embeds its token and prepares the rotation, goes
through the layers, and answers.  Only the layers touch the cache. -/
theorem tqForwardAt_parts (hm : m.Sized) {token pos : Nat}
    (hin : m.tokEmb + tqDtypeNbytes m.qtype m.dim * token < 2 ^ 64)
    (h : (tqForwardAt O (tqStoreInitMapped image bytes) m rt token pos).exec s = (.ok (), s')) :
    ∃ s₂ s₃,
    s₂.mem.Holds .x m.dim (embedding O image m token) ∧ RopeHeld O m pos s₂.mem ∧
      (∀ l ∉ activations, s₂.mem l = s.mem l) ∧
    (forUpTo m.nLayers fun l => do
      tqAttention O (tqStoreInitMapped image bytes) m rt l pos (invSqrtHeadSize O m)
      tqFeedForward O (tqStoreInitMapped image bytes) m l : Tq (TqMachine (TqMem F)) Unit).exec s₂ =
        (.ok (), s₃) ∧
    (∀ x, s₃.mem.Holds .x m.dim x →
      s'.mem.Holds .logits m.vocabSize ((transformer O image m rt.kvDtype).answer x)) ∧
      ∀ l ∉ activations, s'.mem l = s₃.mem l := by
  have hmat := fun out wOff n d acts =>
    tqMatvec_touches O (tqStoreInitMapped image bytes) out wOff n d acts hm.quantized
  unfold tqForwardAt at h
  dsimp only at h
  obtain ⟨_, s₁, hrow, h⟩ := exec_bind_eq_ok h
  have hx := tqRowToFloat_holds O hm hin hrow
  have hrowKeep := (tqRowToFloat_touches O _ _ _ _ hm.quantized hm.dim_blocks).exec_frame hrow
  obtain ⟨_, s₂, hprep, h⟩ := exec_bind_eq_ok h
  have hrope : RopeHeld O m pos s₂.mem := onMem_does _ s₁ s₂ hprep ▸ tqRopePrepare_held pos s₁.mem
  have htables := (onMem_touches (tqRopePrepare_footprint O m pos)).exec_frame hprep
  have hx := hx.kept htables fun i hi =>
    hi.elim (f_not_span (by decide) _ _ i) (f_not_span (by decide) _ _ i)
  obtain ⟨_, s₃, hlayers, h⟩ := exec_bind_eq_ok h
  obtain ⟨_, s₄, hnorm, h⟩ := exec_bind_eq_ok h
  have hnormKeep := (tqNorm_touches O _ .x .x _ m.dim _).exec_frame hnorm
  obtain ⟨_, s₅, hquant, hlogits⟩ := exec_bind_eq_ok h
  have hquantKeep := (onMem_touches (tqQuantizeMem_footprint O .x .xq m.dim)).exec_frame hquant
  have hlogitsKeep := (hmat _ _ _ _ _).exec_frame hlogits
  have hspan : ∀ (b : TqBuf) n, (∀ i, TqLoc.f b i ∈ activations) →
      ∀ l ∉ activations, l ∉ span b 0 n :=
    fun b n hb l hl hmem => hl (span_activations hb hmem)
  have hropes : ropeTables m ⊆ activations :=
    Set.union_subset (span_activations fun _ => trivial) (span_activations fun _ => trivial)
  refine ⟨s₂, s₃, hx, hrope, fun l hl => ?_, hlayers, fun x hx => ?_, fun l hl => ?_⟩
  · exact (htables l fun hmem => hl (hropes hmem)).trans
      (hrowKeep l (hspan .x _ (fun _ => trivial) l hl))
  · exact tqMatvec_holds O hm hlogits (quantize_holds hquant (tqNorm_holds hnorm hx))
  · refine (hlogitsKeep l (hspan .logits _ (fun _ => trivial) l hl)).trans ?_
    refine (hquantKeep l fun hmem => hl (blocks_activations _ _ hmem)).trans ?_
    exact hnormKeep l (hspan .x _ (fun _ => trivial) l hl)

/-- **A step** answers as the network does at its position, and the cache holds
one row more for each layer. -/
theorem tqForwardAt_computes (hm : m.Sized) {tokens : Nat → Int} {pos : Nat}
    (hpos : pos < rt.maxSeq)
    (hin : m.tokEmb + tqDtypeNbytes m.qtype m.dim * (tokens pos).toNat < 2 ^ 64)
    (h : (tqForwardAt O (tqStoreInitMapped image bytes) m rt (tokens pos).toNat pos).exec s =
    (.ok (), s')) (hcache : Decoded O image m rt tokens pos s.mem) :
    s'.mem.Holds .logits m.vocabSize ((transformer O image m rt.kvDtype).answers tokens pos) ∧
      Decoded O image m rt tokens (pos + 1) s'.mem := by
  obtain ⟨s₂, s₃, hx, hrope, hbefore, hlayers, hanswer, hafter⟩ := tqForwardAt_parts hm hin h
  obtain ⟨hx, hcache⟩ := layers_compute hm hpos hlayers hx hrope (hcache.kept hm hbefore)
  exact ⟨hanswer _ hx, hcache.kept hm hafter⟩

/-- The same with one layer and any rows behind the position. -/
theorem tqForwardAt_rows (hm : m.Sized) (hone : m.nLayers = 1) {token pos : Nat}
    (hpos : pos < rt.maxSeq) (hin : m.tokEmb + tqDtypeNbytes m.qtype m.dim * token < 2 ^ 64)
    (h : (tqForwardAt O (tqStoreInitMapped image bytes) m rt token pos).exec s = (.ok (), s'))
    {rows : Nat → KvRow F} (hown : rows pos = kvRowOf O image m 0 pos (embedding O image m token))
    (hrows : ∀ t < pos, RowHeld O m rt s.mem 0 t (rows t)) :
    s'.mem.Holds .logits m.vocabSize ((transformer O image m rt.kvDtype).answer
      ((transformer O image m rt.kvDtype).out 0 pos (embedding O image m token) rows)) := by
  obtain ⟨s₂, s₃, hx, hrope, hbefore, hlayers, hanswer, -⟩ := tqForwardAt_parts hm hin h
  rw [hone] at hlayers
  have hround := exec_forUpTo_ok hlayers 0 Nat.one_pos
  obtain rfl := congrArg Prod.snd hlayers
  refine hanswer _ ((layer_step hm hpos hround).computes _ rows ⟨hx, hrope⟩ hown fun t ht => ?_).1.1
  exact (hrows t ht).agree hm.kv fun loc hloc => hbefore loc
    fun hact => activations_not_cache m rt hact 0 t hloc

end Layers

/-! ## Runs -/

section Runs
variable {F : Type} (O : FloatOps F) {image : List UInt8} {bytes : UInt64} {m : TqModel}
    {rt : TqRuntime}

/-- The logits of each position of a text, as the network gives them. -/
def networkSeen (image : List UInt8) (m : TqModel) (kv : TqKv) (tokens : List Int) :
    List (Except Fault (List F)) :=
  (List.range tokens.length).map fun pos =>
    .ok ((List.range m.vocabSize).map
      ((transformer O image m kv).answers (fun t => tokens.getD t 0) pos))

/-- **A run** from a cache that holds the first `k` positions. -/
theorem decode_run (hbytes : bytes.toNat = image.length) (hm : m.Sized)
    (hin : SlotsInBounds image image.length m) {tokens : Nat → Int} {last : Nat}
    (htok : ∀ pos < last, 0 ≤ tokens pos ∧ tokens pos < m.vocabSize) :
    ∀ (n k : Nat) {s : TqMachine (TqMem F)}, k + n ≤ last → k + n ≤ rt.maxSeq →
      Decoded O image m rt tokens k s.mem →
      logitsSeen m.vocabSize (tqFeed O (tqStoreInitMapped image bytes) m rt
          (callsFrom k ((List.range' k n).map tokens)) s) =
        (List.range' k n).map fun pos =>
          .ok ((List.range m.vocabSize).map ((transformer O image m rt.kvDtype).answers tokens pos))
  | 0, _, _, _, _, _ => rfl
  | n + 1, k, s, hlast, hroom, hcache => by
      obtain ⟨hlow, hhigh⟩ := htok k (by omega)
      have hlen : image.length < 2 ^ 64 := hbytes ▸ bytes.toNat_lt
      obtain ⟨_, s', hrun⟩ := (mapped_serves O hbytes hm hin).returns rt (tokens k) k ⟨hlow,
        hhigh⟩ (by omega) s
      -- the row of the token lies in the file
      have hrow : m.tokEmb + tqDtypeNbytes m.qtype m.dim * (tokens k).toNat < 2 ^ 64 := by
        have hemb := hin.tokEmb
        rw [payloadBytes_rows hm.quantized hm.dim_blocks,
          ← (rowBytes_eq hm.quantized hm.dim_blocks hm.dim_pos hm.dim_lt).1] at hemb
        have hle := Nat.mul_le_mul_left (tqDtypeNbytes m.qtype m.dim)
          (show (tokens k).toNat ≤ m.vocabSize by omega)
        omega
      have hstep := hrun
      unfold tqForward at hstep
      rw [if_neg (by omega), if_neg (by omega), Int.toNat_natCast] at hstep
      obtain ⟨hlogits, hcache⟩ := tqForwardAt_computes hm (show k < rt.maxSeq by omega)
        hrow hstep hcache
      have hrest := decode_run hbytes hm hin htok n (k + 1) (by omega) (by omega) hcache
      have hhead : (List.range m.vocabSize).map (TqMemory.f s'.mem .logits) =
          (List.range m.vocabSize).map ((transformer O image m rt.kvDtype).answers tokens k) :=
        List.map_congr_left fun i hi => hlogits i (List.mem_range.mp hi)
      rw [List.range'_succ, List.map_cons, List.map_cons, callsFrom, tqFeed, hrun]
      show Except.ok _ :: _ = Except.ok _ :: _
      rw [hhead, hrest]

/-- Calls that are seen alike show the same logits. -/
theorem logitsSeen_seen {M : Type} [TqMemory F M] (vocab : Nat) :
    ∀ {a b : List (Except Fault Unit × TqMachine M)}, a.map seen = b.map seen →
      logitsSeen vocab a = logitsSeen vocab b
  | [], [], _ => rfl
  | (.ok (), s) :: a, (.ok (), t) :: b, h => by
      obtain ⟨hhead, hrest⟩ := List.cons.inj h
      have hmem : s.mem = t.mem := congrArg (fun r => r.2.1) hhead
      show Except.ok _ :: _ = Except.ok _ :: _
      rw [hmem, logitsSeen_seen vocab hrest]
  | (.error e, _) :: _, (.error e', _) :: _, h => by
      obtain ⟨hhead, -⟩ := List.cons.inj h
      have herror : Except.error e = Except.error e' := congrArg Prod.fst hhead
      cases herror
      rfl
  | (.ok (), _) :: _, (.error _, _) :: _, h => by
      obtain ⟨hhead, -⟩ := List.cons.inj h
      cases congrArg Prod.fst hhead
  | (.error _, _) :: _, (.ok (), _) :: _, h => by
      obtain ⟨hhead, -⟩ := List.cons.inj h
      cases congrArg Prod.fst hhead

/-- A run from position 0, with buffers apart. -/
theorem logitsSeen_network (hbytes : bytes.toNat = image.length) (hm : m.Sized)
    (hin : SlotsInBounds image image.length m) {tokens : List Int}
    (htok : ∀ token ∈ tokens, 0 ≤ token ∧ token < m.vocabSize) (hlen : tokens.length ≤ rt.maxSeq)
    (s : TqMachine (TqMem F)) :
    logitsSeen m.vocabSize (tqFeed O (tqStoreInitMapped image bytes) m rt (callsFrom 0 tokens) s) =
      networkSeen O image m rt.kvDtype tokens := by
  have hvalid : ∀ pos < tokens.length, 0 ≤ tokens.getD pos 0 ∧ tokens.getD pos 0 < m.vocabSize := by
    intro pos hpos
    rw [List.getD_eq_getElem _ _ hpos]
    exact htok _ (List.getElem_mem hpos)
  have hempty : Decoded O image m rt (fun t => tokens.getD t 0) 0 s.mem :=
    fun l _ t ht => absurd ht (Nat.not_lt_zero t)
  have hrun := decode_run O hbytes hm hin hvalid tokens.length 0 (by omega) (by omega) hempty
  have htokens : (List.range' 0 tokens.length).map (fun t => tokens.getD t 0) = tokens := by
    refine List.ext_getElem (by simp) fun i hi hi' => ?_
    simp [hi']
  rw [htokens] at hrun
  rw [hrun, networkSeen, ← List.range_eq_range']

/-- **The engine computes the transformer of its file.**  On the tokens of a
text, fed one after the other, `tq_forward` shows for each position the logits
of the network that has no cache and no buffers: from a mapped image always,
and from one that is streamed if no read fails. -/
theorem tqForward_transformer (c : TqCodec F) (hbytes : bytes.toNat = image.length)
    {arena : TqArena} {t u : TqTile}
    (hopen : (tqModelOpen (tqStoreInitMapped image bytes) arena).exec t = (.ok m, u))
    (hin : SlotsInBounds image image.length m) {maxSeq kvDtype : Int} {fast cache : TqArena}
    (hrt : SetUp m maxSeq kvDtype fast cache rt) {tokens : List Int}
    (htok : ∀ token ∈ tokens, 0 ≤ token ∧ token < m.vocabSize) (hlen : tokens.length ≤ maxSeq)
    (s : TqMachine (TqFlat c (tqLayout fast cache rt))) :
    logitsSeen m.vocabSize (tqFeed O (tqStoreInitMapped image bytes) m rt (callsFrom 0 tokens) s) =
      networkSeen O image m rt.kvDtype tokens ∧
    ∀ (read : Nat → Nat → Option (List UInt8)) (tileBytes : UInt32), ServesImage image read →
      (∀ r ∈ tqFeed O (tqStoreInitStream bytes read tileBytes) m rt (callsFrom 0 tokens) s,
      r.1 = .ok ()) →
      logitsSeen m.vocabSize
        (tqFeed O (tqStoreInitStream bytes read tileBytes) m rt (callsFrom 0 tokens) s) =
        networkSeen O image m rt.kvDtype tokens := by
  have hm : m.Sized := tqModelOpen_sized hopen
  have hacc := (tqModelOpen_mapped.mp hopen).1
  obtain ⟨hseq, -⟩ := tqRuntimeInit_ok hrt.init
  have hmapped : logitsSeen m.vocabSize
      (tqFeed O (tqStoreInitMapped image bytes) m rt (callsFrom 0 tokens) s) =
      networkSeen O image m rt.kvDtype tokens := by
    rw [logitsSeen_shows O _ hm (hrt.lawful c) _ (shows_named s)]
    exact logitsSeen_network O hbytes hm hin htok (by omega) s.named
  refine ⟨hmapped, fun read tileBytes hread hok => ?_⟩
  have hmirror := tqFeed_mirror O rt hread hbytes ⟨hm, hacc.layers_lt, hacc.classifier_lt⟩
    (callsFrom 0 tokens) s s
    ⟨rfl, rfl⟩ hok
  rw [← hmapped]
  exact (logitsSeen_seen m.vocabSize hmirror).symm

end Runs

/-- The sample lies in its file, for a context of any length. -/
theorem sample_inBounds {seqLen : Nat} (hseq : seqLen < 2 ^ 31) {arena : TqArena} {m : TqModel}
    {t t' : TqTile}
    (hopen : (tqModelOpen (tqStoreInitMapped (sampleImage 60 seqLen 0 1080) 2040) arena).exec t =
    (.ok m, t')) : (2040 : UInt64).toNat = (sampleImage 60 seqLen 0 1080).length ∧
      SlotsInBounds (sampleImage 60 seqLen 0 1080) (sampleImage 60 seqLen 0 1080).length m := by
  have hdesc : Describes (sampleHeader 60 seqLen 2040) (sampleEntries 60 0) :=
    sample_describes (by decide) hseq (by decide) (by decide)
  have hlen : (2040 : UInt64).toNat = (sampleImage 60 seqLen 0 1080).length := by
    rw [sampleImage, length_image hdesc, List.length_replicate]
    rfl
  have hroomy : ∀ e ∈ sampleEntries 60 0, e.offset + e.payload ≤ 2040 := by decide
  refine ⟨hlen, ?_⟩
  rw [← hlen]
  refine (tqModelOpen_mapped.mp hopen).1.inBounds.mpr fun e he => .inr (hroomy e ?_)
  have hmem := he.mem
  rw [sampleImage, directory_image hdesc] at hmem
  exact hmem

theorem sampleImage_length : (2040 : UInt64).toNat = (sampleImage 60 4 0 1080).length :=
  (sample_inBounds (by decide) sampleModel_opens).1

theorem sampleModel_inBounds :
    SlotsInBounds (sampleImage 60 4 0 1080) (sampleImage 60 4 0 1080).length sampleModel :=
  (sample_inBounds (by decide) sampleModel_opens).2

theorem sample_tokens :
    ∀ token ∈ ([1, 0] : List Int), 0 ≤ token ∧ token < sampleModel.vocabSize := by decide

/-- Two tokens with a byte cache, in exact arithmetic, and the same file read
through a tile of 1024 bytes. -/
theorem tqForward_transformer_sample : ∃ rt, rt.kvDtype = .q8 ∧
    logitsSeen sampleModel.vocabSize (tqFeed ratOps sampleStore sampleModel rt [(1, 0), (0, 1)]
        (TqMachine.flat ratOps (tqLayout sampleFast sampleCache rt))) =
      networkSeen ratOps (sampleImage 60 4 0 1080) sampleModel rt.kvDtype [1, 0] ∧
    logitsSeen sampleModel.vocabSize (tqFeed ratOps
        (tqStoreInitStream 2040 (serve (sampleImage 60 4 0 1080)) 1024) sampleModel rt
          [(1, 0), (0, 1)]
        (TqMachine.flat ratOps (tqLayout sampleFast sampleCache rt))) =
      networkSeen ratOps (sampleImage 60 4 0 1080) sampleModel rt.kvDtype [1, 0] := by
  obtain ⟨rt, hrt, hseq, hkv⟩ := sampleModel_runtime true 3
  have hseq : rt.maxSeq = 4 := hseq
  have hstep : ∀ token ∈ ([1, 0] : List Int), ∀ pos : Int, 0 ≤ pos ∧ pos < rt.maxSeq →
      ∀ s : TqMachine (TqFlat (TqCodec.tags ratOps) (tqLayout sampleFast sampleCache rt)),
        ((tqForward ratOps (tqStoreInitStream 2040 (serve (sampleImage 60 4 0 1080)) 1024)
          sampleModel rt token pos).exec s).1 = .ok () := fun token htoken pos hpos s =>
    (tqForward_returns_iff ratOps (supplies_serve _) sampleImage_length
      (tqModelOpen_sized sampleModel_opens) sampleModel_inBounds ⟨by decide, by decide⟩ rt
      (sample_tokens token htoken) hpos s).mpr (by decide)
  obtain ⟨hmapped, hstream⟩ := tqForward_transformer ratOps (TqCodec.tags ratOps) sampleImage_length
    sampleModel_opens sampleModel_inBounds hrt sample_tokens (by decide)
    (TqMachine.flat ratOps (tqLayout sampleFast sampleCache rt))
  refine ⟨rt, hkv, hmapped, hstream _ 1024 (servesImage_serve _) fun r hr => ?_⟩
  rcases List.mem_cons.mp hr with rfl | hr
  · exact hstep 1 (by decide) 0 (by omega) _
  · rw [List.mem_singleton.mp hr]
    exact hstep 0 (by decide) 1 (by omega) _

end TinyLlm
