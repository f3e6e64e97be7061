/-
# `TinyLlm.Forward.Context` — the length of the context

A runtime lays its scores and its cache out by the context it was given: a row
for each layer and position, and a row of scores for each head.  The host takes
256 positions for a message, the board what the model has or what `-c` says, so
the two ends of a message seldom agree on the layout.

A memory for a long context can be read as one for a short one (`relaid`): the
rows of the short layout, each at its place in the long one.  Places are
different for different elements, so a write here is a write there wherever the
memory is lawful, and every operation keeps the two alike (`Relaid`).  On one
side stands any memory, bytes among them, on the other the buffers that have
nothing in common.  So two things are had at once: what a step says does not
depend on the context that has room for it, and a runtime whose buffers are
sound does what the buffers apart from each other do (`tqForward_context`).
-/
import TinyLlm.Forward.Flat
import TinyLlm.Forward.History
import TinyLlm.Forward.Streaming
import TinyLlm.Model.Image

namespace TinyLlm

open Loop Bump Footprints Relational

/-! ## Places -/

/-- An element of a buffer with rows of `w`, in groups of `short` rows: where
it is when there are `long` rows in a group. -/
def relay (long short w i : Nat) : Nat := (i / w / short * long + i / w % short) * w + i % w

theorem relay_row {long short w group row j : Nat} (hrow : row < short) (hj : j < w) :
    relay long short w ((group * short + row) * w + j) = (group * long + row) * w + j := by
  have hpos : 0 < w := Nat.zero_lt_of_lt hj
  have hdiv : ((group * short + row) * w + j) / w = group * short + row := by
    rw [Nat.mul_comm, Nat.mul_add_div hpos, Nat.div_eq_of_lt hj, Nat.add_zero]
  have hgroup : (group * short + row) / short = group := by
    rw [Nat.mul_comm, Nat.mul_add_div (Nat.zero_lt_of_lt hrow), Nat.div_eq_of_lt hrow, Nat.add_zero]
  unfold relay
  rw [hdiv, hgroup, Nat.mul_add_mod', Nat.mod_eq_of_lt hrow, Nat.mul_add_mod', Nat.mod_eq_of_lt hj]

/-- The digits of a number with two bases. -/
theorem eq_of_digits {b q q' r r' : Nat} (hr : r < b) (hr' : r' < b) (h : q * b + r = q' * b + r') :
    q = q' ∧ r = r' := by
  have hmod := congrArg (· % b) h
  simp only [Nat.mul_add_mod', Nat.mod_eq_of_lt hr, Nat.mod_eq_of_lt hr'] at hmod
  subst hmod
  exact ⟨Nat.eq_of_mul_eq_mul_right (Nat.zero_lt_of_lt hr) (Nat.add_right_cancel h), rfl⟩

theorem relay_injective {long short w : Nat} (hw : 0 < w) (hshort : 0 < short)
    (hle : short ≤ long) {i j : Nat} (h : relay long short w i = relay long short w j) : i = j := by
  obtain ⟨hrow, hoff⟩ := eq_of_digits (Nat.mod_lt i hw) (Nat.mod_lt j hw) h
  obtain ⟨hgroup, hin⟩ := eq_of_digits ((Nat.mod_lt (i / w) hshort).trans_le hle)
    ((Nat.mod_lt (j / w) hshort).trans_le hle) hrow
  have hdiv : i / w = j / w := by
    rw [← Nat.div_add_mod (i / w) short, ← Nat.div_add_mod (j / w) short, hgroup, hin]
  rw [← Nat.div_add_mod i w, ← Nat.div_add_mod j w, hdiv, hoff]

/-- The width of a row of a buffer that the context lays out. -/
def TqBuf.rowWidth (m : TqModel) : TqBuf → Option Nat
  | .att => some 1
  | .kCache => some m.kvDim
  | .vCache => some m.kvDim
  | .kScale => some m.nKvHeads
  | .vScale => some m.nKvHeads
  | _ => none

/-- The place of an element in the long layout. -/
def TqBuf.place (m : TqModel) (long short : Nat) (b : TqBuf) (i : Nat) : Nat :=
  (b.rowWidth m).elim i fun w => relay long short w i

/-- Two contexts, the short one not empty. -/
structure Shortens (long short : Nat) : Prop where
  pos : 0 < short
  le : short ≤ long

section Places
variable {m : TqModel} {long short : Nat}

theorem place_injective (hm : m.Sized) (hs : Shortens long short) (b : TqBuf) {i j : Nat}
    (h : b.place m long short i = b.place m long short j) : i = j := by
  have hkv : 0 < m.kvDim := by
    rw [hm.kv]
    exact Nat.mul_pos hm.headSize_pos hm.nKvHeads_pos
  unfold TqBuf.place at h
  cases b with
  | att => exact relay_injective Nat.one_pos hs.pos hs.le h
  | kCache => exact relay_injective hkv hs.pos hs.le h
  | vCache => exact relay_injective hkv hs.pos hs.le h
  | kScale => exact relay_injective hm.nKvHeads_pos hs.pos hs.le h
  | vScale => exact relay_injective hm.nKvHeads_pos hs.pos hs.le h
  | _ => exact h

theorem place_none {b : TqBuf} (h : b.rowWidth m = none) (i : Nat) :
    b.place m long short i = i := by
  unfold TqBuf.place
  rw [h]
  rfl

theorem place_row {b : TqBuf} {w : Nat} (h : b.rowWidth m = some w) {group row j : Nat}
    (hrow : row < short) (hj : j < w) :
    b.place m long short ((group * short + row) * w + j) = (group * long + row) * w + j := by
  unfold TqBuf.place
  rw [h]
  exact relay_row hrow hj

/-- A score of a head. -/
theorem place_att {h t : Nat} (ht : t < short) :
    TqBuf.place m long short .att (h * short + t) = h * long + t := by
  have hplace : TqBuf.place m long short .att ((h * short + t) * 1 + 0) = (h * long + t) * 1 + 0 :=
    place_row rfl ht Nat.one_pos
  rwa [Nat.mul_one, Nat.mul_one, Nat.add_zero, Nat.add_zero] at hplace

end Places

/-! ## The relation -/

section Relaid
variable {F M : Type} [TqMemory F M] {m : TqModel} {long short : Nat} {A : Set TqLoc}
    {s : M} {t : TqMem F}

/-- The place of a location in the long layout. -/
def TqLoc.place (m : TqModel) (long short : Nat) : TqLoc → TqLoc
  | .f b i => .f b (b.place m long short i)
  | .i8 b i => .i8 b (relay long short m.kvDim i)
  | .blk b i => .blk b i

/-- A memory for the long context, read as one for the short. -/
def relaid (m : TqModel) (long short : Nat) (s : M) : TqMem F
  | .f b i => TqMemory.f s b (b.place m long short i)
  | .i8 b i => TqMemory.i8 s b (relay long short m.kvDim i)
  | .blk b i => TqMemory.blk s b i

/-- `t` holds what `s` does, laid out for the short context. -/
abbrev Relaid (m : TqModel) (long short : Nat) (A : Set TqLoc) (s : M) (t : TqMem F) : Prop :=
  Agree A (relaid m long short s) t

variable (M) in
/-- What is asked of the locations and of the memory: writes at the places of
different locations do not meet. -/
structure Moves (m : TqModel) (long short : Nat) (A : Set TqLoc) : Prop where
  sized : m.Sized
  shortens : Shortens long short
  lawful : Lawful M (TqLoc.place m long short '' A)

theorem TqLoc.place_injective (hm : m.Sized) (hs : Shortens long short) {l l' : TqLoc}
    (h : l.place m long short = l'.place m long short) : l = l' := by
  have hkv : 0 < m.kvDim := by
    rw [hm.kv]
    exact Nat.mul_pos hm.headSize_pos hm.nKvHeads_pos
  cases l with
  | f b i =>
      cases l' with
      | f b' j =>
          injection h with hb hplace
          subst hb
          exact congrArg _ (TinyLlm.place_injective hm hs b hplace)
      | _ => cases h
  | i8 b i =>
      cases l' with
      | i8 b' j =>
          injection h with hb hplace
          subst hb
          exact congrArg _ (relay_injective hkv hs.pos hs.le hplace)
      | _ => cases h
  | blk b i =>
      cases l' with
      | blk b' j => exact h
      | _ => cases h

/-- A write here, seen from elsewhere there. -/
theorem Moves.other (h : Moves M m long short A) {l l' : TqLoc} (hl : l ∈ A) (hl' : l' ∈ A)
    (hne : l' ≠ l) (v : TqVal F (l.place m long short)) :
    relaid m long short (TqMemory.put s (l.place m long short) v) l' =
      relaid m long short s l' := by
  have hget := h.lawful.other s _ ⟨l, hl, rfl⟩ _ ⟨l', hl', rfl⟩
    (fun heq => hne (TqLoc.place_injective h.sized h.shortens heq)) v
  cases l' with
  | f b i => exact hget
  | i8 b i => exact hget
  | blk b i => exact hget

theorem put_self (mem : TqMem F) (l : TqLoc) (v : TqVal F l) : mem.put l v l = v :=
  Function.update_self l v mem

theorem put_of_ne (mem : TqMem F) {l l' : TqLoc} {v : TqVal F l} (h : l' ≠ l) :
    mem.put l v l' = mem l' :=
  Function.update_of_ne h v mem

/-- **A write here is a write there.** -/
theorem Relaid.put_f (h : Relaid m long short A s t) (hv : Moves M m long short A)
    {b : TqBuf} {i j : Nat} (hj : .f b j ∈ A) (hplace : b.place m long short j = i) {v w : F}
    (hvw : v = w) :
    Relaid m long short A (TqMemory.put s (.f b i) v) (t.put (.f b j) w) := by
  subst hplace hvw
  intro l hl
  by_cases hne : l = .f b j
  · subst hne
    exact (hv.lawful.same s _ ⟨_, hj, rfl⟩ v).trans (put_self t (.f b j) v).symm
  · exact (hv.other hj hl hne v).trans ((h l hl).trans (put_of_ne t hne).symm)

theorem Relaid.put_i8 (h : Relaid m long short A s t) (hv : Moves M m long short A)
    {b : TqBytes} {i j : Nat} (hj : .i8 b j ∈ A) (hplace : relay long short m.kvDim j = i)
    {v w : Int8} (hvw : v = w) :
    Relaid m long short A (TqMemory.put s (.i8 b i) v) (t.put (.i8 b j) w) := by
  subst hplace hvw
  intro l hl
  by_cases hne : l = .i8 b j
  · subst hne
    exact (hv.lawful.same s _ ⟨_, hj, rfl⟩ v).trans (put_self t (.i8 b j) v).symm
  · exact (hv.other hj hl hne v).trans ((h l hl).trans (put_of_ne t hne).symm)

theorem Relaid.put_blk (h : Relaid m long short A s t) (hv : Moves M m long short A)
    {b : TqQuant} {i : Nat} (hi : .blk b i ∈ A) {v w : TqBlockQ80} (hvw : v = w) :
    Relaid m long short A (TqMemory.put s (.blk b i) v) (t.put (.blk b i) w) := by
  subst hvw
  intro l hl
  by_cases hne : l = .blk b i
  · subst hne
    exact (hv.lawful.same s _ ⟨_, hi, rfl⟩ v).trans (put_self t (.blk b i) v).symm
  · exact (hv.other hi hl hne v).trans ((h l hl).trans (put_of_ne t hne).symm)

/-- **A read here is a read there.** -/
theorem Relaid.read_f (h : Relaid m long short A s t) {b : TqBuf} {i j : Nat} (hj : .f b j ∈ A)
    (hplace : b.place m long short j = i) : TqMemory.f s b i = t.f b j := by
  subst hplace
  exact h (.f b j) hj

theorem Relaid.read_i8 (h : Relaid m long short A s t) {b : TqBytes} {i j : Nat} (hj : .i8 b j ∈ A)
    (hplace : relay long short m.kvDim j = i) : TqMemory.i8 s b i = t.i8 b j := by
  subst hplace
  exact h (.i8 b j) hj

/-- A loop that fills a span. -/
theorem Relaid.fill (h : Relaid m long short A s t) (hv : Moves M m long short A) {b : TqBuf}
    {n a a' : Nat} {g : Nat → M → F} {g' : Nat → TqMem F → F} (hin : ∀ i < n, .f b (a' + i) ∈ A)
    (hplace : ∀ i < n, b.place m long short (a' + i) = a + i)
    (hg : ∀ i < n, ∀ s t, Relaid m long short A s t → g i s = g' i t) :
    Relaid m long short A (forUp n (fun i mem => TqMemory.put mem (.f b (a + i)) (g i mem)) s)
      (forUp n (fun i (mem : TqMem F) => mem.put (.f b (a' + i)) (g' i mem)) t) :=
  forUp_rel (I := fun _ s t => Relaid m long short A s t) h fun i hi _ _ hst =>
    hst.put_f hv (hin i hi) (hplace i hi) (hg i hi _ _ hst)

/-! ## Buffers that stay -/

/-- `n` elements of a buffer that the context does not move. -/
structure Stays (m : TqModel) (A : Set TqLoc) (b : TqBuf) (n : Nat) : Prop where
  none : b.rowWidth m = none
  mem : span b 0 n ⊆ A

theorem Stays.at {b : TqBuf} {n : Nat} (h : Stays m A b n) {i : Nat} (hi : i < n) : .f b i ∈ A :=
  h.mem (mem_span_zero hi)

/-- The same element, here and there. -/
theorem Relaid.read (h : Relaid m long short A s t) {b : TqBuf} {n : Nat}
    (hb : Stays m A b n) {i : Nat} (hi : i < n) : TqMemory.f s b i = t.f b i :=
  h.read_f (hb.at hi) (place_none hb.none i)

theorem Relaid.fill_zero (h : Relaid m long short A s t) (hv : Moves M m long short A)
    {b : TqBuf} {n : Nat} {g : Nat → M → F} {g' : Nat → TqMem F → F} (hb : Stays m A b n)
    (hg : ∀ i < n, ∀ s t, Relaid m long short A s t → g i s = g' i t) :
    Relaid m long short A (forUp n (fun i mem => TqMemory.put mem (.f b i) (g i mem)) s)
      (forUp n (fun i (mem : TqMem F) => mem.put (.f b i) (g' i mem)) t) :=
  forUp_rel (I := fun _ s t => Relaid m long short A s t) h fun i hi _ _ hst =>
    hst.put_f hv (hb.at hi) (place_none hb.none i) (hg i hi _ _ hst)

section Vectors
variable (O : FloatOps F)

theorem Relaid.tqRmsnorm (h : Relaid m long short A s t) (hv : Moves M m long short A)
    {out src : TqBuf} {n : Nat} (hout : Stays m A out n) (hsrc : Stays m A src n)
    (w : Nat → F) (eps : F) :
    Relaid m long short A (tqRmsnorm O out src w n eps s) (tqRmsnorm O out src w n eps t) := by
  have hscale : rmsScale O n eps (TqMemory.f s src) = rmsScale O n eps (TqMemory.f t src) :=
    rmsScale_congr O eps fun _ hi => h.read hsrc hi
  unfold TinyLlm.tqRmsnorm
  dsimp only
  rw [hscale]
  exact h.fill_zero hv hout fun i hi s t hst => by
    rw [hst.read hsrc hi]
    rfl

theorem Relaid.tqQuantizeMem (h : Relaid m long short A s t)
    (hv : Moves M m long short A) {src : TqBuf} {out : TqQuant} {n : Nat} (hsrc : Stays m A src n)
    (hout : blocks out (n / tqGroupSize) ⊆ A) :
    Relaid m long short A (tqQuantizeMem O src out n s) (tqQuantizeMem O src out n t) := by
  refine forUp_rel (I := fun _ s t => Relaid m long short A s t) h fun b hb s t hst => ?_
  refine hst.put_blk hv (hout ⟨b, hb, rfl⟩) (quantizeBlock_congr O fun j hj => hst.read hsrc ?_)
  have hend := Nat.mul_le_mul_right tqGroupSize (Nat.succ_le_of_lt hb)
  rw [Nat.succ_mul] at hend
  have hn := Nat.div_mul_le_self n tqGroupSize
  omega

theorem Relaid.tqAddInto (h : Relaid m long short A s t) (hv : Moves M m long short A)
    {dst src : TqBuf} {n : Nat} (hdst : Stays m A dst n) (hsrc : Stays m A src n) :
    Relaid m long short A (tqAddInto O dst src n s) (tqAddInto O dst src n t) :=
  h.fill_zero hv hdst fun i hi s t hst => by
    rw [hst.read hdst hi, hst.read hsrc hi]
    rfl

theorem Relaid.tqSwiglu (h : Relaid m long short A s t) (hv : Moves M m long short A) {n : Nat}
    (hhb : Stays m A .hb n) (hhb3 : Stays m A .hb3 n) :
    Relaid m long short A (tqSwiglu O n s) (tqSwiglu O n t) := by
  unfold TinyLlm.tqSwiglu
  dsimp only
  exact h.fill_zero hv hhb fun i hi s t hst => by
    rw [hst.read hhb hi, hst.read hhb3 hi]
    rfl

theorem Relaid.tqDequantizeMem (h : Relaid m long short A s t) (hv : Moves M m long short A)
    {out : TqBuf} {n : Nat} (hout : Stays m A out n) (bs : List UInt8) (dtype : Nat) :
    Relaid m long short A (tqDequantizeMem O out bs dtype n s)
      (tqDequantizeMem O out bs dtype n t) := by
  unfold TinyLlm.tqDequantizeMem
  refine @tqDequantizeWith_rel F O M (TqMem F) (Relaid m long short A) _ _ n
    (fun i hi v s t hst => ?_) bs dtype _ _ h
  exact hst.put_f hv (hout.at hi) (place_none hout.none i) rfl

theorem Relaid.tqDotRows (h : Relaid m long short A s t) (hv : Moves M m long short A) {out : TqBuf}
    {d i rows : Nat} (hout : Stays m A out d) (hrows : i + rows ≤ d) {acts : TqQuant} {nb : Nat}
    (hacts : blocks acts nb ⊆ A) (dtype rowBytes : Nat) (ws : List UInt8) :
    Relaid m long short A (tqDotRows O out dtype rowBytes nb acts ws i rows s)
      (tqDotRows O out dtype rowBytes nb acts ws i rows t) := by
  refine h.fill hv (fun r hr => hout.at (by omega)) (fun r _ => place_none hout.none _)
    fun r _ s t hst => ?_
  exact rowDot_congr O dtype _ fun b hb => hst (.blk acts b) (hacts ⟨b, hb, rfl⟩)

/-- The tables of a position. -/
structure RopeStays (m : TqModel) (A : Set TqLoc) : Prop where
  cos : Stays m A .ropeCos (m.headSize / 2)
  sin : Stays m A .ropeSin (m.headSize / 2)

theorem Relaid.tqRopePrepare (h : Relaid m long short A s t) (hv : Moves M m long short A)
    (htab : RopeStays m A) (pos : Nat) :
    Relaid m long short A (tqRopePrepare O m pos s) (tqRopePrepare O m pos t) :=
  forUp_rel (I := fun _ s t => Relaid m long short A s t) h fun i hi _ _ hst =>
    (hst.put_f hv (htab.cos.at hi) (place_none rfl i) rfl).put_f hv (htab.sin.at hi)
      (place_none rfl i) rfl

theorem Relaid.tqRopeApply (h : Relaid m long short A s t) (hv : Moves M m long short A)
    (htab : RopeStays m A) {v : TqBuf} {n : Nat} (hb : Stays m A v n) (hn : m.headSize ∣ n) :
    Relaid m long short A (tqRopeApply O m v n s) (tqRopeApply O m v n t) := by
  obtain ⟨k, rfl⟩ := hn
  have hpos := hv.sized.headSize_pos
  have hheads : (m.headSize * k + m.headSize - 1) / m.headSize = k := by
    rw [Nat.add_sub_assoc hpos, Nat.mul_add_div hpos,
      Nat.div_eq_of_lt (Nat.sub_lt hpos Nat.one_pos), Nat.add_zero]
  unfold TinyLlm.tqRopeApply
  rw [hheads]
  refine forUp_rel (I := fun _ s t => Relaid m long short A s t) h fun head hhead s t hst => ?_
  refine forUp_rel (I := fun _ s t => Relaid m long short A s t) hst fun i hi s t hst => ?_
  have hend := Nat.mul_le_mul_left m.headSize (Nat.succ_le_of_lt hhead)
  rw [Nat.mul_succ, Nat.mul_comm m.headSize head] at hend
  have h₀ : head * m.headSize + 2 * i < m.headSize * k := by omega
  have h₁ : head * m.headSize + 2 * i + 1 < m.headSize * k := by omega
  unfold tqRotatePair
  dsimp only
  rw [hst.read htab.cos hi, hst.read htab.sin hi, hst.read hb h₀, hst.read hb h₁]
  exact (hst.put_f hv (hb.at h₀) (place_none hb.none _) rfl).put_f hv (hb.at h₁)
    (place_none hb.none _) rfl

end Vectors

end Relaid

/-! ## The cache -/

section Cache
variable {F M : Type} [TqMemory F M] (O : FloatOps F) {m : TqModel} {rt rt' : TqRuntime}
    {s : M} {t : TqMem F}

variable (M) in
/-- Two runtimes with caches of one type, the first for a context that is at
least as long, over a memory in which the rows of the second do not meet. -/
structure Alongside (m : TqModel) (rt rt' : TqRuntime) : Prop where
  kv : rt'.kvDtype = rt.kvDtype
  moves : Moves M m rt.maxSeq rt'.maxSeq (live m rt')

/-- A value of a head is one of the row. -/
theorem head_value (hm : m.Sized) {kvh i : Nat} (hkvh : kvh < m.nKvHeads) (hi : i < m.headSize) :
    kvh * m.headSize + i < m.kvDim := by
  have hend := head_le (w := m.headSize) hkvh
  rw [hm.kv, Nat.mul_comm m.headSize]
  omega

/-- An element of a row is one of the cache. -/
theorem row_live {kv : TqKv} (hkv : rt.kvDtype = kv) {layer pos w j : Nat}
    (hlayer : layer < m.nLayers) (hpos : pos < rt.maxSeq) (hj : j < w) :
    kvRow rt layer pos * w + j < kvElements m rt kv w := by
  have hrow : kvRow rt layer pos < m.nLayers * rt.maxSeq := by
    have hend := head_le (w := rt.maxSeq) hlayer
    unfold kvRow
    omega
  have hend := head_le (w := w) hrow
  unfold kvElements
  rw [if_pos hkv]
  omega

/-- The rows of a position. -/
theorem cacheRow_live {layer pos : Nat} (hlayer : layer < m.nLayers) (hpos : pos < rt.maxSeq) :
    cacheRow m rt layer pos ⊆ live m rt := by
  intro l hl
  cases hkv : rt.kvDtype with
  | f32 =>
      rw [cacheRow_f32 m rt hkv] at hl
      rcases hl with ⟨i, hi, rfl⟩ | ⟨i, hi, rfl⟩
      · exact row_live hkv hlayer hpos hi
      · exact row_live hkv hlayer hpos hi
  | q8 =>
      rw [cacheRow_q8 m rt hkv] at hl
      rcases hl with (⟨i, hi, rfl⟩ | ⟨i, hi, rfl⟩) | (⟨i, hi, rfl⟩ | ⟨i, hi, rfl⟩)
      · exact row_live hkv hlayer hpos hi
      · exact row_live hkv hlayer hpos hi
      · exact row_live hkv hlayer hpos hi
      · exact row_live hkv hlayer hpos hi

/-- Its place. -/
theorem place_kvRow {b : TqBuf} {w : Nat} (h : b.rowWidth m = some w) {layer pos j : Nat}
    (hpos : pos < rt'.maxSeq) (hj : j < w) :
    b.place m rt.maxSeq rt'.maxSeq (kvRow rt' layer pos * w + j) = kvRow rt layer pos * w + j :=
  place_row h hpos hj

theorem relay_kvRow {w layer pos j : Nat} (hpos : pos < rt'.maxSeq) (hj : j < w) :
    relay rt.maxSeq rt'.maxSeq w (kvRow rt' layer pos * w + j) = kvRow rt layer pos * w + j :=
  relay_row hpos hj

/-- A score of a head. -/
theorem att_live {head t : Nat} (hhead : head < m.nHeads) (ht : t < rt.maxSeq) :
    .f .att (head * rt.maxSeq + t) ∈ live m rt := by
  have hend := head_le (w := rt.maxSeq) hhead
  show head * rt.maxSeq + t < m.nHeads * rt.maxSeq
  omega

/-- A buffer that stays, whole. -/
theorem stays_live {b : TqBuf} (hb : b.rowWidth m = none) {n : Nat} (hn : n ≤ b.elements m rt) :
    Stays m (live m rt) b n := by
  refine ⟨hb, ?_⟩
  rintro l ⟨i, hi, rfl⟩
  show 0 + i < b.elements m rt
  omega

theorem blocks_live {b : TqQuant} {n : Nat} (hn : n ≤ b.elements m) : blocks b n ⊆ live m rt := by
  rintro l ⟨i, hi, rfl⟩
  exact Nat.lt_of_lt_of_le hi hn

theorem rope_live : RopeStays m (live m rt) :=
  ⟨stays_live rfl (Nat.le_refl _), stays_live rfl (Nat.le_refl _)⟩

theorem Relaid.absMax (h : Relaid m rt.maxSeq rt'.maxSeq (live m rt') s t) {src : TqBuf}
    {off n k : Nat} (hsrc : Stays m (live m rt') src k) (hn : off + n ≤ k) :
    TinyLlm.absMax O n (fun i => TqMemory.f s src (off + i)) = TinyLlm.absMax O n
      fun i => t.f src (off + i) :=
  absMax_congr O fun _ hi => h.read hsrc (by omega)

/-- One head of the byte branch: its scale and its values. -/
theorem Relaid.tqKvQuantHead (h : Relaid m rt.maxSeq rt'.maxSeq (live m rt') s t)
    (ha : Alongside M m rt rt') (hq8 : rt'.kvDtype = .q8) {cache : TqBytes} {scale src : TqBuf}
    (hscale : scale.rowWidth m = some m.nKvHeads)
    (hlive : scale.elements m rt' = kvElements m rt' .q8 m.nKvHeads)
    (hsrc : Stays m (live m rt') src m.kvDim) {layer pos kvh : Nat} (hlayer : layer < m.nLayers)
    (hpos : pos < rt'.maxSeq) (hkvh : kvh < m.nKvHeads) :
    Relaid m rt.maxSeq rt'.maxSeq (live m rt')
      (tqKvQuantHead O cache scale src m.headSize (kvRow rt layer pos * m.kvDim)
      (kvRow rt layer pos * m.nKvHeads + kvh)
        (kvh * m.headSize) s)
      (tqKvQuantHead O cache scale src m.headSize (kvRow rt' layer pos * m.kvDim)
        (kvRow rt' layer pos * m.nKvHeads + kvh) (kvh * m.headSize) t) := by
  have hm := ha.moves.sized
  have hhead : kvh * m.headSize + m.headSize ≤ m.kvDim := by
    rw [hm.kv, Nat.mul_comm m.headSize]
    exact head_le hkvh
  unfold TinyLlm.tqKvQuantHead
  dsimp only
  rw [h.absMax O hsrc hhead]
  have hscaleLive : .f scale (kvRow rt' layer pos * m.nKvHeads + kvh) ∈ live m rt' := by
    show _ < scale.elements m rt'
    rw [hlive]
    exact row_live hq8 hlayer hpos hkvh
  have hput :=
    h.put_f (v := O.div (TinyLlm.absMax O m.headSize fun i => t.f src (kvh * m.headSize + i))
    (O.ofInt 127)) ha.moves hscaleLive (@place_row m rt.maxSeq rt'.maxSeq scale _ hscale layer _ _
    hpos hkvh) rfl
  refine forUp_rel (I := fun _ s t => Relaid m rt.maxSeq rt'.maxSeq (live m rt') s t) hput
    fun i hi s t hst => ?_
  refine hst.put_i8 ha.moves (row_live hq8 hlayer hpos (head_value hm hkvh hi))
    (relay_row hpos (head_value hm hkvh hi)) ?_
  rw [hst.read hsrc (by omega)]
  rfl

/-- **A store** fills the row, here and there. -/
theorem Relaid.tqKvStore (h : Relaid m rt.maxSeq rt'.maxSeq (live m rt') s t)
    (ha : Alongside M m rt rt') {layer : Nat} (hlayer : layer < m.nLayers) {pos : Nat}
    (hpos : pos < rt'.maxSeq) :
    Relaid m rt.maxSeq rt'.maxSeq (live m rt') (tqKvStore O m rt layer pos s)
      (tqKvStore O m rt' layer pos t) := by
  have hkb : Stays m (live m rt') .kb m.kvDim := stays_live rfl (Nat.le_refl _)
  have hvb : Stays m (live m rt') .vb m.kvDim := stays_live rfl (Nat.le_refl _)
  unfold TinyLlm.tqKvStore
  rw [ha.kv]
  cases hkv : rt.kvDtype with
  | f32 =>
      refine Relaid.fill ?_ ha.moves (fun i hi => row_live (ha.kv.trans hkv) hlayer hpos hi)
        (fun i hi => place_row rfl hpos hi) fun i hi s t hst => hst.read hvb hi
      exact h.fill ha.moves (fun i hi => row_live (ha.kv.trans hkv) hlayer hpos hi)
        (fun i hi => place_row rfl hpos hi) fun i hi s t hst => hst.read hkb hi
  | q8 =>
      refine forUp_rel (I := fun _ s t => Relaid m rt.maxSeq rt'.maxSeq (live m rt') s t) h
        fun kvh hkvh s t hst => ?_
      have hq8 := ha.kv.trans hkv
      exact (hst.tqKvQuantHead O ha hq8 rfl rfl hkb hlayer hpos hkvh).tqKvQuantHead O ha hq8 rfl
        rfl hvb hlayer hpos hkvh

theorem Relaid.tqKvDotK (h : Relaid m rt.maxSeq rt'.maxSeq (live m rt') s t)
    (ha : Alongside M m rt rt') {layer qo pos kvh : Nat} (hlayer : layer < m.nLayers)
    (hpos : pos < rt'.maxSeq) (hkvh : kvh < m.nKvHeads) (hqo : qo + m.headSize ≤ m.dim) :
    tqKvDotK O m rt layer pos kvh qo s = tqKvDotK O m rt' layer pos kvh qo t := by
  have hm := ha.moves.sized
  have hq : ∀ i < m.headSize, TqMemory.f s .q (qo + i) = t.f .q (qo + i) := fun i hi =>
    h.read (stays_live rfl (Nat.le_refl _)) (show qo + i < m.dim by omega)
  unfold TinyLlm.tqKvDotK
  rw [ha.kv]
  cases hkv : rt.kvDtype with
  | f32 =>
      refine forUp_congr _ fun i hi sum => ?_
      have hvalue := head_value hm hkvh hi
      rw [Nat.add_assoc, Nat.add_assoc, hq i hi,
        h.read_f (b := .kCache) (row_live (ha.kv.trans hkv) hlayer hpos hvalue)
        (place_kvRow rfl hpos hvalue)]
      rfl
  | q8 =>
      dsimp only
      rw [h.read_f (b := .kScale) (row_live (ha.kv.trans hkv) hlayer hpos hkvh)
        (place_kvRow rfl hpos hkvh)]
      refine congrArg (fun x => O.mul x _) (forUp_congr _ fun i hi sum => ?_)
      have hvalue := head_value hm hkvh hi
      rw [Nat.add_assoc, Nat.add_assoc, hq i hi,
        h.read_i8 (b := .kCache) (row_live (ha.kv.trans hkv) hlayer hpos hvalue)
        (relay_kvRow hpos hvalue)]
      rfl

theorem Relaid.tqKvAccV (h : Relaid m rt.maxSeq rt'.maxSeq (live m rt') s t)
    (ha : Alongside M m rt rt') {layer head oo pos kvh : Nat} (hlayer : layer < m.nLayers)
    (hhead : head < m.nHeads) (hpos : pos < rt'.maxSeq) (hkvh : kvh < m.nKvHeads)
    (hoo : oo + m.headSize ≤ m.dim) :
    Relaid m rt.maxSeq rt'.maxSeq (live m rt')
      (tqKvAccV O m rt layer pos kvh (head * rt.maxSeq + pos) oo s)
      (tqKvAccV O m rt' layer pos kvh (head * rt'.maxSeq + pos) oo t) := by
  have hm := ha.moves.sized
  have hxb : Stays m (live m rt') .xb m.dim := stays_live rfl (Nat.le_refl _)
  unfold TinyLlm.tqKvAccV
  rw [ha.kv]
  dsimp only
  rw [h.read_f (b := .att) (att_live hhead hpos) (place_att hpos)]
  cases hkv : rt.kvDtype with
  | f32 =>
      refine h.fill ha.moves (fun i hi => hxb.at (by omega)) (fun _ _ => place_none rfl _)
        fun i hi s t hst => ?_
      have hvalue := head_value hm hkvh hi
      rw [Nat.add_assoc, Nat.add_assoc, hst.read hxb (show oo + i < m.dim by omega),
        hst.read_f (b := .vCache) (row_live (ha.kv.trans hkv) hlayer hpos hvalue)
        (place_kvRow rfl hpos hvalue)]
      rfl
  | q8 =>
      dsimp only
      rw [h.read_f (b := .vScale) (row_live (ha.kv.trans hkv) hlayer hpos hkvh)
        (place_kvRow rfl hpos hkvh)]
      refine h.fill ha.moves (fun i hi => hxb.at (by omega)) (fun _ _ => place_none rfl _)
        fun i hi s t hst => ?_
      have hvalue := head_value hm hkvh hi
      rw [Nat.add_assoc, Nat.add_assoc, hst.read hxb (show oo + i < m.dim by omega),
        hst.read_i8 (b := .vCache) (row_live (ha.kv.trans hkv) hlayer hpos hvalue)
        (relay_kvRow hpos hvalue)]
      rfl

/-- The softmax over the scores of a head. -/
theorem Relaid.tqSoftmax (h : Relaid m rt.maxSeq rt'.maxSeq (live m rt') s t)
    (ha : Alongside M m rt rt') {head : Nat} (hhead : head < m.nHeads) {n : Nat} (hpos : 0 < n)
    (hn : n ≤ rt'.maxSeq) :
    Relaid m rt.maxSeq rt'.maxSeq (live m rt') (tqSoftmax O .att (head * rt.maxSeq) n s)
      (tqSoftmax O .att (head * rt'.maxSeq) n t) := by
  have hread : ∀ {s : M} {t : TqMem F}, Relaid m rt.maxSeq rt'.maxSeq (live m rt') s t → ∀ i < n,
      TqMemory.f s .att (head * rt.maxSeq + i) = t.f .att (head * rt'.maxSeq + i) := by
    intro s t hst i hi
    exact hst.read_f (att_live hhead (hi.trans_le hn)) (place_att (hi.trans_le hn))
  have hmax : softmaxMax O n (fun i => TqMemory.f s .att (head * rt.maxSeq + i)) =
      softmaxMax O n fun i => TqMemory.f t .att (head * rt'.maxSeq + i) := by
    unfold softmaxMax
    dsimp only
    rw [hread h 0 hpos]
    refine forUp_congr _ fun i hi max => ?_
    exact congrArg (fun v => if O.lt max v then v else max) (hread h (i + 1) (by omega))
  unfold TinyLlm.tqSoftmax
  rw [hmax]
  generalize softmaxMax O n (fun i => TqMemory.f t .att (head * rt'.maxSeq + i)) = max
  have hexps := forUp_rel (n := n) (s := (s, O.ofInt 0)) (t := (t, O.ofInt 0))
    (I := fun _ (a : M × F) (b : TqMem F × F) =>
      Relaid m rt.maxSeq rt'.maxSeq (live m rt') a.1 b.1 ∧ a.2 = b.2)
    (f := fun i a => (TqMemory.put a.1 (.f .att (head * rt.maxSeq + i))
      (O.tqExpf (O.sub (TqMemory.f a.1 .att (head * rt.maxSeq + i)) max)),
      O.add a.2 (O.tqExpf (O.sub (TqMemory.f a.1 .att (head * rt.maxSeq + i)) max))))
    (g := fun i b => (TqMemory.put b.1 (.f .att (head * rt'.maxSeq + i))
      (O.tqExpf (O.sub (TqMemory.f b.1 .att (head * rt'.maxSeq + i)) max)),
      O.add b.2 (O.tqExpf (O.sub (TqMemory.f b.1 .att (head * rt'.maxSeq + i)) max)))) ⟨h, rfl⟩
    fun i hi a b hab => by
      dsimp only
      rw [hread hab.1 i hi, hab.2]
      exact ⟨hab.1.put_f ha.moves (att_live hhead (hi.trans_le hn))
        (place_att (hi.trans_le hn)) rfl, rfl⟩
  obtain ⟨hmem, hsum⟩ := hexps
  dsimp only at hmem hsum ⊢
  rw [hsum]
  refine hmem.fill ha.moves (fun i hi => att_live hhead (hi.trans_le hn))
    (fun i hi => place_att (hi.trans_le hn)) fun i hi a b hab => ?_
  rw [hread hab i hi]
  rfl

/-- **A head.** -/
theorem Relaid.tqAttendHead (h : Relaid m rt.maxSeq rt'.maxSeq (live m rt') s t)
    (ha : Alongside M m rt rt') {layer : Nat} (hlayer : layer < m.nLayers) {pos head : Nat}
    (hpos : pos < rt'.maxSeq) (hhead : head < m.nHeads) (invSqrtHs : F) :
    Relaid m rt.maxSeq rt'.maxSeq (live m rt') (tqAttendHead O m rt layer pos head invSqrtHs s)
      (tqAttendHead O m rt' layer pos head invSqrtHs t) := by
  have hm := ha.moves.sized
  have hkvh : head / m.kvMul < m.nKvHeads := Nat.div_lt_of_lt_mul (hm.groups ▸ hhead)
  have hin : ∀ {i}, i < pos + 1 → i < rt'.maxSeq := fun hi => (Nat.le_of_lt_succ hi).trans_lt hpos
  have hqo : head * m.headSize + m.headSize ≤ m.dim := hm.heads ▸ head_le hhead
  have hxb : Stays m (live m rt') .xb m.dim := stays_live rfl (Nat.le_refl _)
  unfold TinyLlm.tqAttendHead
  refine forUp_rel (I := fun _ s t => Relaid m rt.maxSeq rt'.maxSeq (live m rt') s t) ?_
    fun i hi s t hst =>
    hst.tqKvAccV O ha hlayer hhead (hin hi) hkvh hqo
  refine Relaid.fill ?_ ha.moves (fun i hi => hxb.at (by omega)) (fun _ _ => place_none rfl _)
    fun _ _ _ _ _ => rfl
  refine Relaid.tqSoftmax O ?_ ha hhead (Nat.succ_pos pos) hpos
  refine h.fill ha.moves (fun i hi => att_live hhead (hin hi)) (fun i hi => place_att (hin hi))
    fun i hi s t hst => ?_
  rw [hst.tqKvDotK O ha hlayer (hin hi) hkvh hqo]

end Cache

/-! ## A step -/

section Step
variable {F M : Type} [TqMemory F M] (O : FloatOps F) (st : TqStore) {m : TqModel}
    {rt rt' : TqRuntime}
variable {long short : Nat} {A : Set TqLoc}

/-- The machines of a long and of a short context. -/
def RelaidRun (m : TqModel) (long short : Nat) (A : Set TqLoc) (s : TqMachine M)
    (t : TqMachine (TqMem F)) : Prop :=
  Relaid m long short A s.mem t.mem

theorem onMem_relaid {op : M → M} {op' : TqMem F → TqMem F}
    (h : ∀ s t, Relaid m long short A s t → Relaid m long short A (op s) (op' t)) :
    Rel alike (RelaidRun m long short A) (onMem op) (onMem op')
      fun _ _ => RelaidRun m long short A :=
  Rel.modify fun s t hst => h s.mem t.mem hst

/-- The store answers both alike. -/
theorem viewed_relaid (off n k : Nat) (rc : TqStatus) {f : List UInt8 → Tq (TqMachine M) Unit}
    {g : List UInt8 → Tq (TqMachine (TqMem F)) Unit}
    (h : ∀ bs, Rel alike (RelaidRun m long short A) (f bs) (g bs)
      fun _ _ => RelaidRun m long short A) :
    Rel alike (RelaidRun m long short A)
      (onTile (viewOr st off n rc) >>= fun v => onTile (deref v k) >>= f)
      (onTile (viewOr st off n rc) >>= fun v => onTile (deref v k) >>= g)
        fun _ _ => RelaidRun m long short A := by
  rw [← bind_assoc, ← bind_assoc]
  refine Rel.bind_alike (I := RelaidRun m long short A) (fun s t hst => ?_) h
  obtain ⟨u, hs⟩ := viewed_exec st off n k rc s
  obtain ⟨u', ht⟩ := viewed_exec st off n k rc t
  rw [hs, ht]
  cases st.fetch off n with
  | none => exact ⟨id, fun _ => ⟨_, rfl⟩⟩
  | some found =>
      dsimp only
      by_cases hk : k ≤ found.2
      · rw [if_pos hk]
        exact ⟨_, _, rfl, rfl, hst⟩
      · rw [if_neg hk]
        exact ⟨id, fun _ => ⟨_, rfl⟩⟩

section Parts
variable (hv : Moves M m long short A)
include hv

theorem tqNorm_relaid {out src : TqBuf} {n : Nat} (hout : Stays m A out n)
    (hsrc : Stays m A src n) (wOff : Nat) (eps : F) :
    Rel alike (RelaidRun m long short A) (tqNorm O st out src wOff n eps : Tq (TqMachine M) Unit)
      (tqNorm O st out src wOff n eps) fun _ _ => RelaidRun m long short A := by
  unfold tqNorm
  exact viewed_relaid st _ _ _ _ fun bs => onMem_relaid
    fun _ _ hst => hst.tqRmsnorm O hv hout hsrc _ eps

theorem tqRowToFloat_relaid {out : TqBuf} {n : Nat} (hout : Stays m A out n)
    (baseOff dtype row : Nat) :
    Rel alike (RelaidRun m long short A)
      (tqRowToFloat O st baseOff dtype n row out : Tq (TqMachine M) Unit)
      (tqRowToFloat O st baseOff dtype n row out) fun _ _ => RelaidRun m long short A := by
  unfold tqRowToFloat
  dsimp only
  refine Rel.ite (fun _ => Rel.throw_bind id) fun _ => ?_
  exact viewed_relaid st _ _ _ _ fun bs => onMem_relaid
    fun _ _ hst => hst.tqDequantizeMem O hv hout bs dtype

/-- The rows that are left, as many at a time as the tile holds. -/
theorem tqMatvecLoop_relaid {out : TqBuf} {d : Nat} (hout : Stays m A out d)
    (wOff rowBytes rowsPerTile : Nat) {dtype : Nat} (hdtype : dtype = tqDtQ40 ∨ dtype = tqDtQ80)
    {acts : TqQuant} {nb : Nat} (hacts : blocks acts nb ⊆ A) :
    ∀ fuel i, Rel alike (RelaidRun m long short A)
      (tqMatvecLoop O st out wOff dtype rowBytes nb d rowsPerTile acts fuel i : Tq
      (TqMachine M) Unit)
      (tqMatvecLoop O st out wOff dtype rowBytes nb d rowsPerTile acts fuel i)
        fun _ _ => RelaidRun m long short A
  | 0, _ => Rel.pure fun _ _ hst => hst
  | fuel + 1, i => by
      rw [tqMatvecLoop, tqMatvecLoop]
      refine Rel.ite (fun hi => ?_) fun _ => Rel.pure fun _ _ hst => hst
      dsimp only
      have hle : i + min (d - i) rowsPerTile ≤ d := by omega
      generalize min (d - i) rowsPerTile = chunk at hle
      have hknown : ¬ (dtype ≠ tqDtQ40 ∧ dtype ≠ tqDtQ80) := by
        rcases hdtype with rfl | rfl <;> decide
      simp only [hknown, if_false]
      refine viewed_relaid st _ _ _ _ fun ws => Rel.seq (onMem_relaid fun _ _ hst => ?_)
        (tqMatvecLoop_relaid hout wOff rowBytes rowsPerTile hdtype hacts fuel (i + chunk))
      exact hst.tqDotRows O hv hout hle hacts dtype rowBytes ws

/-- **A matrix.** -/
theorem tqMatvec_relaid {out : TqBuf} {n d : Nat} (hout : Stays m A out d) {acts : TqQuant}
    (hacts : blocks acts (n / tqGroupSize) ⊆ A) (wOff : Nat) :
    Rel alike (RelaidRun m long short A)
      (tqMatvec O st out wOff m.qtype n d acts : Tq (TqMachine M) Unit)
      (tqMatvec O st out wOff m.qtype n d acts) fun _ _ => RelaidRun m long short A := by
  have hdtype := hv.sized.quantized
  have hknown : ¬ (m.qtype ≠ tqDtQ40 ∧ m.qtype ≠ tqDtQ80) := by
    rcases hdtype with h | h <;> rw [h] <;> decide
  unfold tqMatvec
  dsimp only
  refine Rel.ite (fun _ => Rel.throw_bind id) fun _ => ?_
  have hcount : Rel alike (RelaidRun m long short A)
      (modify fun s =>
        { s with bytesRead := (s.bytesRead + tqDtypeNbytes m.qtype n * d) % 2 ^ 64 } : Tq
        (TqMachine M) Unit)
      (modify fun s => { s with bytesRead := (s.bytesRead + tqDtypeNbytes m.qtype n * d) % 2 ^ 64 })
        fun _ _ =>
        RelaidRun m long short A := Rel.modify fun _ _ hst => hst
  refine hcount.seq ?_
  cases st.backing with
  | mapped base =>
      dsimp only
      refine Rel.ite (fun _ => Rel.throw_bind id) fun _ => ?_
      rw [if_neg hknown, if_neg hknown]
      refine Rel.bind_alike (I := RelaidRun m long short A) (fun s t hst => ?_)
        fun ws => onMem_relaid fun _ _ hst =>
        hst.tqDotRows O hv hout (Nat.zero_add d).le hacts m.qtype _ ws
      rw [onTile_exec, onTile_exec, behind_direct, behind_direct]
      by_cases hlen : tqDtypeNbytes m.qtype n * d ≤ (base.drop wOff).length
      · rw [if_pos hlen]
        exact ⟨_, _, rfl, rfl, hst⟩
      · rw [if_neg hlen]
        exact ⟨id, fun _ => ⟨_, rfl⟩⟩
  | stream read tileBytes =>
      dsimp only
      refine Rel.ite (fun _ => Rel.throw_bind id) fun _ => ?_
      exact tqMatvecLoop_relaid O st hv hout wOff _ _ hdtype hacts d 0

end Parts

/-! ### With the cache -/

section Step
variable (ha : Alongside M m rt rt')
include ha

theorem quantize_relaid {src : TqBuf} {out : TqQuant} {n : Nat} (hsrc : Stays m (live m rt') src n)
    (hout : n / tqGroupSize ≤ out.elements m) :
    Rel alike (RelaidRun m rt.maxSeq rt'.maxSeq (live m rt'))
      (onMem (tqQuantizeMem O src out n) : Tq (TqMachine M) Unit)
      (onMem (tqQuantizeMem O src out n)) fun _ _ =>
        RelaidRun m rt.maxSeq rt'.maxSeq (live m rt') :=
  onMem_relaid fun _ _ hst => hst.tqQuantizeMem O ha.moves hsrc (blocks_live hout)

theorem rope_relaid {v : TqBuf} {n : Nat} (hstays : Stays m (live m rt') v n)
    (hn : m.headSize ∣ n) :
    Rel alike (RelaidRun m rt.maxSeq rt'.maxSeq (live m rt'))
      (onMem (tqRopeApply O m v n) : Tq (TqMachine M) Unit)
      (onMem (tqRopeApply O m v n)) fun _ _ => RelaidRun m rt.maxSeq rt'.maxSeq (live m rt') :=
  onMem_relaid fun _ _ hst => hst.tqRopeApply O ha.moves rope_live hstays hn

theorem addInto_relaid :
    Rel alike (RelaidRun m rt.maxSeq rt'.maxSeq (live m rt'))
      (onMem (tqAddInto O .x .xb2 m.dim) : Tq (TqMachine M) Unit)
      (onMem (tqAddInto O .x .xb2 m.dim)) fun _ _ => RelaidRun m rt.maxSeq rt'.maxSeq
        (live m rt') :=
  onMem_relaid fun _ _ hst =>
    hst.tqAddInto O ha.moves (stays_live rfl (Nat.le_refl _)) (stays_live rfl (Nat.le_refl _))

theorem tqAttention_relaid {layer : Nat} (hlayer : layer < m.nLayers) {pos : Nat}
    (hpos : pos < rt'.maxSeq) (invSqrtHs : F) :
    Rel alike (RelaidRun m rt.maxSeq rt'.maxSeq (live m rt'))
      (tqAttention O st m rt layer pos invSqrtHs : Tq (TqMachine M) Unit)
      (tqAttention O st m rt' layer pos invSqrtHs) fun _ _ => RelaidRun m rt.maxSeq rt'.maxSeq
        (live m rt') := by
  have hm := ha.moves.sized
  have hdim : m.headSize ∣ m.dim := ⟨m.nHeads, by rw [← hm.heads, Nat.mul_comm]⟩
  have hkvDim : m.headSize ∣ m.kvDim := ⟨m.nKvHeads, hm.kv⟩
  have hstays : ∀ b : TqBuf, b.rowWidth m = none → Stays m (live m rt') b (b.elements m rt') :=
    fun b hb =>
    stays_live hb (Nat.le_refl _)
  have hxq : blocks .xq (m.dim / tqGroupSize) ⊆ live m rt' := blocks_live (Nat.le_refl _)
  have hheads : Rel alike (RelaidRun m rt.maxSeq rt'.maxSeq (live m rt'))
      (onMem fun mem => forUp m.nHeads
        (fun h mem => tqAttendHead O m rt layer pos h invSqrtHs mem) mem : Tq (TqMachine M) Unit)
      (onMem fun mem => forUp m.nHeads (fun h mem => tqAttendHead O m rt' layer pos h invSqrtHs mem)
        mem) fun _ _ =>
        RelaidRun m rt.maxSeq rt'.maxSeq (live m rt') :=
    onMem_relaid
      fun _ _ hst => forUp_rel
      (I := fun _ s t => Relaid m rt.maxSeq rt'.maxSeq (live m rt') s t) hst
      fun head hhead _ _ hst => hst.tqAttendHead O ha hlayer hpos hhead invSqrtHs
  unfold tqAttention
  dsimp only
  exact (tqNorm_relaid O st ha.moves (hstays .xb rfl) (hstays .x rfl) _ _).seq <|
    (quantize_relaid O ha (hstays .xb rfl) (Nat.le_refl _)).seq <|
    (tqMatvec_relaid O st ha.moves (hstays .q rfl) hxq _).seq <|
    (tqMatvec_relaid O st ha.moves (hstays .kb rfl) hxq _).seq <|
    (tqMatvec_relaid O st ha.moves (hstays .vb rfl) hxq _).seq <|
    (rope_relaid O ha (hstays .q rfl) hdim).seq <| (rope_relaid O ha (hstays .kb rfl) hkvDim).seq <|
    (onMem_relaid fun _ _ hst => hst.tqKvStore O ha hlayer hpos).seq <| hheads.seq <|
    (quantize_relaid O ha (hstays .xb rfl) (Nat.le_refl _)).seq <|
    (tqMatvec_relaid O st ha.moves (hstays .xb2 rfl) hxq _).seq <| addInto_relaid O ha

theorem tqFeedForward_relaid (layer : Nat) :
    Rel alike (RelaidRun m rt.maxSeq rt'.maxSeq (live m rt'))
      (tqFeedForward O st m layer : Tq (TqMachine M) Unit)
      (tqFeedForward O st m layer) fun _ _ => RelaidRun m rt.maxSeq rt'.maxSeq (live m rt') := by
  have hstays : ∀ b : TqBuf, b.rowWidth m = none → Stays m (live m rt') b (b.elements m rt') :=
    fun b hb =>
    stays_live hb (Nat.le_refl _)
  have hxq : blocks .xq (m.dim / tqGroupSize) ⊆ live m rt' := blocks_live (Nat.le_refl _)
  have hhq : blocks .hq (m.hiddenDim / tqGroupSize) ⊆ live m rt' := blocks_live (Nat.le_refl _)
  unfold tqFeedForward
  dsimp only
  exact (tqNorm_relaid O st ha.moves (hstays .xb rfl) (hstays .x rfl) _ _).seq <|
    (quantize_relaid O ha (hstays .xb rfl) (Nat.le_refl _)).seq <|
    (tqMatvec_relaid O st ha.moves (hstays .hb rfl) hxq _).seq <|
    (tqMatvec_relaid O st ha.moves (hstays .hb3 rfl) hxq _).seq <|
    (onMem_relaid fun _ _ hst => hst.tqSwiglu O ha.moves (hstays .hb rfl) (hstays .hb3 rfl)).seq <|
    (quantize_relaid O ha (hstays .hb rfl) (Nat.le_refl _)).seq <|
    (tqMatvec_relaid O st ha.moves (hstays .xb2 rfl) hhq _).seq <| addInto_relaid O ha

/-- **A step** at a position of the short context. -/
theorem tqForward_relaid (token : Int) {pos : Nat} (hpos : pos < rt'.maxSeq) :
    Rel alike (RelaidRun m rt.maxSeq rt'.maxSeq (live m rt'))
      (tqForward O st m rt token pos : Tq (TqMachine M) Unit)
      (tqForward O st m rt' token pos) fun _ _ => RelaidRun m rt.maxSeq rt'.maxSeq
        (live m rt') := by
  have hlong : pos < rt.maxSeq := hpos.trans_le ha.moves.shortens.le
  have hstays : ∀ b : TqBuf, b.rowWidth m = none → Stays m (live m rt') b (b.elements m rt') :=
    fun b hb =>
    stays_live hb (Nat.le_refl _)
  unfold tqForward
  rw [if_neg (show ¬ ((pos : Int) < 0 ∨ (pos : Int) ≥ rt.maxSeq) by omega),
    if_neg (show ¬ ((pos : Int) < 0 ∨ (pos : Int) ≥ rt'.maxSeq) by omega)]
  refine Rel.ite (fun _ => Rel.throw id) fun _ => ?_
  unfold tqForwardAt
  dsimp only
  refine (tqRowToFloat_relaid O st ha.moves (hstays .x rfl) _ _ _).seq ?_
  refine (onMem_relaid fun _ _ hst => hst.tqRopePrepare O ha.moves rope_live pos).seq ?_
  refine (Rel.forUpTo (I := fun _ => RelaidRun m rt.maxSeq rt'.maxSeq (live m rt')) fun l hl =>
    (tqAttention_relaid O st ha hl hpos _).seq (tqFeedForward_relaid O st ha l)).seq ?_
  exact (tqNorm_relaid O st ha.moves (hstays .x rfl) (hstays .x rfl) _ _).seq <|
    (quantize_relaid O ha (hstays .x rfl) (Nat.le_refl _)).seq <|
    tqMatvec_relaid O st ha.moves (hstays .logits rfl) (blocks_live (Nat.le_refl _)) _

end Step

end Step

/-! ## Runs -/

section Runs
variable {F M : Type} [TqMemory F M] (O : FloatOps F) (st : TqStore) {m : TqModel}
    {rt rt' : TqRuntime}

/-- The logits are in neither context moved. -/
theorem Relaid.logits {long short : Nat} {s : M} {t : TqMem F}
    (h : Relaid m long short (live m rt) s t) :
    (List.range m.vocabSize).map (TqMemory.f s .logits) =
    (List.range m.vocabSize).map (TqMemory.f t .logits) :=
  List.map_congr_left fun _ hi => h.read (stays_live rfl (Nat.le_refl _)) (List.mem_range.mp hi)

/-- **A run** that the short context has room for. -/
theorem logitsSeen_relaid (ha : Alongside M m rt rt') :
    ∀ (tokens : List Int) (k : Nat) {s : TqMachine M}
    {t : TqMachine (TqMem F)}, k + tokens.length ≤ rt'.maxSeq →
    RelaidRun m rt.maxSeq rt'.maxSeq (live m rt') s t →
    logitsSeen m.vocabSize (tqFeed O st m rt (callsFrom k tokens) s) =
      logitsSeen m.vocabSize (tqFeed O st m rt' (callsFrom k tokens) t)
  | [], _, _, _, _, _ => rfl
  | token :: tokens, k, s, t, hlen, hst => by
      rw [List.length_cons] at hlen
      have hstep := tqForward_relaid O st ha token (show k < rt'.maxSeq by omega) s t hst
      rw [callsFrom, tqFeed, tqFeed]
      rcases hs : (tqForward O st m rt token k).exec s with ⟨e | u, s'⟩
      · rw [hs] at hstep
        obtain ⟨t', ht⟩ := hstep.2 trivial
        rw [ht]
        rfl
      · rw [hs] at hstep
        obtain ⟨u', t', ht, hrelaid⟩ := hstep
        have hrest := logitsSeen_relaid ha tokens (k + 1) (by omega) hrelaid
        rw [ht]
        show Except.ok _ :: _ = Except.ok _ :: _
        rw [Relaid.logits hrelaid, hrest]

/-- Two contexts, the first of them the longer, whatever is in the buffers. -/
theorem logitsSeen_shorter (ha : Alongside M m rt rt') {tokens : List Int}
    (hlen : tokens.length ≤ rt'.maxSeq) (s : TqMachine M) (t : TqMachine (TqMem F)) :
    logitsSeen m.vocabSize (tqFeed O st m rt (callsFrom 0 tokens) s) =
      logitsSeen m.vocabSize (tqFeed O st m rt' (callsFrom 0 tokens) t) := by
  have hrun := logitsSeen_relaid O st ha tokens 0 (s := s)
    (t := ⟨relaid m rt.maxSeq rt'.maxSeq s.mem, s.bytesRead, s.tile⟩) (by omega) fun _ _ => rfl
  refine hrun.trans (logitsSeen_agree O st rt' ha.moves.sized tokens 0 fun l hl => ?_)
  obtain ⟨_, _, i, hi, _⟩ := (mem_cached rt').mp hl
  exact absurd hi (Nat.not_lt_zero i)

/-! ### One runtime, any memory -/

theorem relay_same {n w i : Nat} : relay n n w i = i := by
  unfold relay
  rw [Nat.div_add_mod' (i / w) n, Nat.div_add_mod' i w]

theorem place_same (n : Nat) (b : TqBuf) (i : Nat) : b.place m n n i = i := by
  unfold TqBuf.place
  cases b.rowWidth m with
  | none => rfl
  | some w => exact relay_same

theorem TqLoc.place_same (n : Nat) (l : TqLoc) : l.place m n n = l := by
  cases l with
  | f b i => exact congrArg (TqLoc.f b) (TinyLlm.place_same n b i)
  | i8 b i => exact congrArg (TqLoc.i8 b) relay_same
  | blk b i => rfl

theorem relaid_same (n : Nat) (s : M) : relaid m n n s = TqMemory.get s := by
  funext l
  cases l with
  | f b i => exact congrArg (TqMemory.f s b) (place_same n b i)
  | i8 b i => exact congrArg (TqMemory.i8 s b) relay_same
  | blk b i => rfl

theorem alongside_same (hm : m.Sized) (hpos : 0 < rt.maxSeq) (hl : Lawful M (live m rt)) :
    Alongside M m rt rt := by
  refine ⟨rfl, hm, ⟨hpos, Nat.le_refl _⟩, hl.mono ?_⟩
  rintro _ ⟨l, hl, rfl⟩
  rw [TqLoc.place_same]
  exact hl

/-- A machine with buffers apart that holds in every element what this one does. -/
def Shows (m : TqModel) (rt : TqRuntime) (s : TqMachine M) (t : TqMachine (TqMem F)) : Prop :=
  Agree (live m rt) (TqMemory.get s.mem) t.mem

/-- The one that holds just that. -/
def TqMachine.named (s : TqMachine M) : TqMachine (TqMem F) :=
  ⟨TqMemory.get s.mem, s.bytesRead, s.tile⟩

theorem shows_named (s : TqMachine M) : Shows m rt s s.named := fun _ _ => rfl

/-- **Over a lawful memory** a step does what it does with buffers apart. -/
theorem tqForward_shows (hm : m.Sized) (hl : Lawful M (live m rt)) (token pos : Int) :
    Rel alike (Shows m rt) (tqForward O st m rt token pos : Tq (TqMachine M) Unit)
      (tqForward O st m rt token pos)
      fun _ _ => Shows m rt := by
  by_cases hpos : 0 ≤ pos ∧ pos < rt.maxSeq
  · obtain ⟨n, rfl⟩ := Int.eq_ofNat_of_zero_le hpos.1
    have hn : n < rt.maxSeq := by omega
    have hstep := tqForward_relaid O st (alongside_same hm (Nat.zero_lt_of_lt hn) hl) token hn
    refine hstep.conseq (fun s t hst => ?_) fun _ _ s t hst => ?_
    · show Agree (live m rt) (relaid m rt.maxSeq rt.maxSeq s.mem) t.mem
      rw [relaid_same]
      exact hst
    · have hst : Agree (live m rt) (relaid m rt.maxSeq rt.maxSeq s.mem) t.mem := hst
      rw [relaid_same] at hst
      exact hst
  · unfold tqForward
    refine Rel.ite (fun _ => Rel.throw id) fun _ => ?_
    rw [if_pos (by omega), if_pos (by omega)]
    exact Rel.throw id

theorem Shows.logits {s : TqMachine M} {t : TqMachine (TqMem F)} (h : Shows m rt s t) :
    (List.range m.vocabSize).map (TqMemory.f s.mem .logits) =
      (List.range m.vocabSize).map (TqMemory.f t.mem .logits) :=
  List.map_congr_left fun i hi => h (.f .logits i) (List.mem_range.mp hi)

/-- **A run** over a lawful memory. -/
theorem logitsSeen_shows (hm : m.Sized) (hl : Lawful M (live m rt)) :
    ∀ (calls : List (Int × Int)) {s : TqMachine M}
    {t : TqMachine (TqMem F)}, Shows m rt s t →
    logitsSeen m.vocabSize (tqFeed O st m rt calls s) =
      logitsSeen m.vocabSize (tqFeed O st m rt calls t)
  | [], _, _, _ => rfl
  | (token, pos) :: calls, s, t, hst => by
      have hstep := tqForward_shows O st hm hl token pos s t hst
      rw [tqFeed, tqFeed]
      rcases hs : (tqForward O st m rt token pos).exec s with ⟨e | u, s'⟩
      · rw [hs] at hstep
        obtain ⟨t', ht⟩ := hstep.2 trivial
        rw [ht]
        rfl
      · rw [hs] at hstep
        obtain ⟨u', t', ht, hend⟩ := hstep
        rw [ht]
        show Except.ok _ :: _ = Except.ok _ :: _
        rw [hend.logits, logitsSeen_shows hm hl calls hend]

/-- And what it leaves behind. -/
theorem machineAfter_shows (hm : m.Sized) (hl : Lawful M (live m rt)) : ∀ (calls : List (Int × Int))
    {s : TqMachine M} {t : TqMachine (TqMem F)}, Shows m rt s t →
      (∀ r ∈ tqFeed O st m rt calls s, r.1 = .ok ()) →
    (∀ r ∈ tqFeed O st m rt calls t, r.1 = .ok ()) ∧
      Shows m rt (machineAfter O st m rt calls s) (machineAfter O st m rt calls t)
  | [], _, _, hst, _ => ⟨fun _ hr => absurd hr List.not_mem_nil, hst⟩
  | (token, pos) :: calls, s, t, hst, hok => by
      rw [tqFeed] at hok
      obtain ⟨hhead, hrest⟩ := List.forall_mem_cons.mp hok
      obtain ⟨u, t', ht, hend⟩ := (tqForward_shows O st hm hl token pos).of_ok hst hhead
      obtain ⟨hok', hafter⟩ := machineAfter_shows hm hl calls hend hrest
      rw [tqFeed, machineAfter, machineAfter, ht]
      exact ⟨List.forall_mem_cons.mpr ⟨rfl, hok'⟩, hafter⟩

end Runs

theorem tqRuntimeInit_pos {m : TqModel} {maxSeq kvDtype : Int} {fast cache : TqArena}
    {rt : TqRuntime} (h : tqRuntimeInit m maxSeq kvDtype fast cache = .ok rt) : 0 < maxSeq := by
  unfold tqRuntimeInit at h
  split at h
  · cases h
  · next hrange => exact Int.not_le.mp (not_or.mp hrange).1

/-- **Context independence.**  Two runtimes of one model with caches of one
type, set up for contexts of any lengths, show the same logits on every run of
tokens that both have room for. -/
theorem tqForward_context {F : Type} (O : FloatOps F) (c : TqCodec F) {st : TqStore}
    {arena : TqArena} {t t' : TqTile} {m : TqModel}
    (hopen : (tqModelOpen st arena).exec t = (.ok m, t')) {maxSeq maxSeq' kvDtype : Int}
    {fast cache fast' cache' : TqArena} {rt rt' : TqRuntime}
    (hrt : SetUp m maxSeq kvDtype fast cache rt) (hrt' : SetUp m maxSeq' kvDtype fast' cache' rt')
    (tokens : List Int) (hlen : tokens.length ≤ maxSeq ∧ tokens.length ≤ maxSeq')
    (s : TqMachine (TqFlat c (tqLayout fast cache rt)))
    (s' : TqMachine (TqFlat c (tqLayout fast' cache' rt'))) :
    logitsSeen m.vocabSize (tqFeed O st m rt (callsFrom 0 tokens) s) =
      logitsSeen m.vocabSize (tqFeed O st m rt' (callsFrom 0 tokens) s') := by
  have hm : m.Sized := tqModelOpen_sized hopen
  obtain ⟨hseq, hkv, -, -⟩ := tqRuntimeInit_ok hrt.init
  obtain ⟨hseq', hkv', -, -⟩ := tqRuntimeInit_ok hrt'.init
  have hpos := tqRuntimeInit_pos hrt.init
  have hpos' := tqRuntimeInit_pos hrt'.init
  rw [logitsSeen_shows O st hm (hrt.lawful c) _ (shows_named s),
    logitsSeen_shows O st hm (hrt'.lawful c) _ (shows_named s')]
  rcases Nat.le_total rt.maxSeq rt'.maxSeq with hle | hle
  · exact (logitsSeen_shorter O st ⟨hkv.trans hkv'.symm, hm, ⟨by omega, hle⟩, lawful_named _⟩
      (by omega) s'.named s.named).symm
  · exact logitsSeen_shorter O st ⟨hkv'.trans hkv.symm, hm, ⟨by omega, hle⟩, lawful_named _⟩
      (by omega) s.named s'.named

/-- A runtime over these arenas. -/
theorem sampleArenas_setUp {m : TqModel} {maxSeq : Nat} {kv : Bool}
    (hinit : (tqRuntimeInit m maxSeq (if kv then 1 else 0) sampleFast sampleCache).isOk = true)
    (hfast : NoWrap sampleFast (tqFastSizes m maxSeq))
    (hcache : NoWrap sampleCache (tqCacheSizes m maxSeq (if kv then .q8 else .f32))) :
    ∃ rt, SetUp m maxSeq (if kv then 1 else 0) sampleFast sampleCache rt ∧ rt.maxSeq = maxSeq ∧
      rt.kvDtype = if kv then .q8 else .f32 := by
  have hkind : (if (if kv then (1 : Int) else 0) = 0 then TqKv.f32 else .q8) =
      if kv then .q8 else .f32 := by
    cases kv with
    | true => rfl
    | false => rfl
  cases hrt : tqRuntimeInit m maxSeq (if kv then 1 else 0) sampleFast sampleCache with
  | ok rt =>
      obtain ⟨hseq, hkv, -⟩ := tqRuntimeInit_ok hrt
      rw [Int.toNat_natCast] at hseq
      refine ⟨rt, ⟨hrt, ⟨⟨by decide, by decide⟩, by decide, by decide⟩, .inl (by decide), ?_⟩, hseq,
        hkv.trans hkind⟩
      rw [Int.toNat_natCast, hkind]
      exact ⟨hfast, hcache⟩
  | error rc =>
      rw [hrt] at hinit
      cases hinit

theorem sampleModel_runtime (kv : Bool) (maxSeq : Fin 4) : ∃ rt,
    SetUp sampleModel (maxSeq + 1 : Nat) (if kv then 1 else 0) sampleFast sampleCache rt ∧
      rt.maxSeq = maxSeq + 1 ∧ rt.kvDtype = if kv then .q8 else .f32 := by
  have hwrap : ∀ kv : Bool, ∀ maxSeq : Fin 4,
      top sampleFast.addr (carveItems (tqFastSizes sampleModel (maxSeq + 1))) <
        sampleFast.addr + sampleFast.sizeMod ∧
      top sampleCache.addr (carveItems (tqCacheSizes sampleModel (maxSeq + 1)
        (if kv then .q8 else .f32))) < sampleCache.addr + sampleCache.sizeMod := by decide
  obtain ⟨rt, hrt, -, -⟩ := sampleModel_init kv maxSeq
  exact sampleArenas_setUp (by rw [hrt]; rfl) (hwrap kv maxSeq).1 (hwrap kv maxSeq).2

/-- Two tokens in contexts of four and of two positions, with byte caches, in exact arithmetic. -/
theorem tqForward_context_sample : ∃ rt rt', rt.maxSeq = 4 ∧ rt'.maxSeq = 2 ∧
    logitsSeen sampleModel.vocabSize (tqFeed ratOps sampleStore sampleModel rt [(1, 0), (0, 1)]
        (TqMachine.flat ratOps (tqLayout sampleFast sampleCache rt))) =
      logitsSeen sampleModel.vocabSize (tqFeed ratOps sampleStore sampleModel rt' [(1, 0), (0, 1)]
        (TqMachine.flat ratOps (tqLayout sampleFast sampleCache rt'))) := by
  obtain ⟨rt, hrt, hseq, -⟩ := sampleModel_runtime true 3
  obtain ⟨rt', hrt', hseq', -⟩ := sampleModel_runtime true 1
  exact ⟨rt, rt', hseq, hseq',
    tqForward_context ratOps (TqCodec.tags ratOps) sampleModel_opens hrt hrt' [1,
      0] (by decide) _ _⟩

end TinyLlm
