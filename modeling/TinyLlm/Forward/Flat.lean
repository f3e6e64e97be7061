/-
# `TinyLlm.Forward.Flat` — the arenas as bytes

The buffers of a runtime are pointers into two arrays of bytes.  An element has
an address there (`tqLayout`), computed as C computes it: a sum that wraps when
`size_t` does.  A memory of bytes (`TqFlat`) reads and writes elements at their
addresses; what a scalar looks like in memory is up to a codec.

Whether a write to one element spares the others is then no matter of course.
A memory is `Lawful` on a set of locations when it does there, so that each of
them keeps what was written last, and a memory of bytes is lawful on locations
that share no byte.  Elements of a runtime whose buffers are sound share none
(`BuffersSound.lawful`).
-/
import TinyLlm.Forward.Arena
import TinyLlm.Forward.Footprint
import TinyLlm.Lib.ByteMemory

namespace TinyLlm

open Bump ByteMemory

/-! ## Elements of buffers -/

section Live
variable (m : TqModel) (rt : TqRuntime)

/-- The elements of a cache of the type, if it is the one of the runtime. -/
def kvElements (kv : TqKv) (row : Nat) : Nat :=
  if rt.kvDtype = kv then m.nLayers * rt.maxSeq * row else 0

/-- The elements of a buffer. -/
def TqBuf.elements : TqBuf → Nat
  | .x => m.dim
  | .xb => m.dim
  | .xb2 => m.dim
  | .q => m.dim
  | .hb => m.hiddenDim
  | .hb3 => m.hiddenDim
  | .att => m.nHeads * rt.maxSeq
  | .logits => m.vocabSize
  | .kb => m.kvDim
  | .vb => m.kvDim
  | .ropeCos => m.headSize / 2
  | .ropeSin => m.headSize / 2
  | .kCache => kvElements m rt .f32 m.kvDim
  | .vCache => kvElements m rt .f32 m.kvDim
  | .kScale => kvElements m rt .q8 m.nKvHeads
  | .vScale => kvElements m rt .q8 m.nKvHeads

def TqQuant.elements : TqQuant → Nat
  | .xq => m.dim / tqGroupSize
  | .hq => m.hiddenDim / tqGroupSize

/-- The elements of the buffers of a runtime. -/
def live : Set TqLoc := {l | match l with
  | .f b i => i < b.elements m rt
  | .i8 _ i => i < kvElements m rt .q8 m.kvDim
  | .blk b i => i < b.elements m}

end Live

/-! ## Lawful memories -/

section Lawful
variable {F M : Type} [TqMemory F M]

/-- What a location holds. -/
def TqMemory.get (mem : M) : ∀ l, TqVal F l
  | .f b i => TqMemory.f mem b i
  | .i8 b i => TqMemory.i8 mem b i
  | .blk b i => TqMemory.blk mem b i

variable (M) in
/-- Each location of a set keeps what was written there last. -/
structure Lawful (A : Set TqLoc) : Prop where
  same : ∀ (mem : M), ∀ l ∈ A, ∀ v, TqMemory.get (TqMemory.put mem l v) l = v
  other : ∀ (mem : M), ∀ l ∈ A, ∀ l' ∈ A, l' ≠ l → ∀ v, TqMemory.get (TqMemory.put mem l v) l' =
    TqMemory.get mem l'

theorem Lawful.mono {A B : Set TqLoc} (h : Lawful M B) (hsub : A ⊆ B) : Lawful M A :=
  ⟨fun mem l hl => h.same mem l (hsub hl),
    fun mem l hl l' hl' => h.other mem l (hsub hl) l' (hsub hl')⟩

theorem get_named (mem : TqMem F) : TqMemory.get mem = mem := by
  funext l
  cases l with
  | f b i => rfl
  | i8 b i => rfl
  | blk b i => rfl

/-- Buffers that have nothing in common. -/
theorem lawful_named (A : Set TqLoc) : Lawful (TqMem F) A := by
  refine ⟨fun mem l _ v => ?_, fun mem l _ l' _ hne v => ?_⟩
  · rw [get_named]
    exact Function.update_self l v mem
  · rw [get_named, get_named]
    exact Function.update_of_ne hne v mem

end Lawful

/-! ## Bytes -/

/-- What an element is. -/
inductive TqKind where
  | f
  | i8
  | blk
deriving DecidableEq

/-- Its bytes: `sizeof(float)`, `sizeof(int8_t)`, `sizeof(TqBlockQ80)`. -/
def TqKind.width : TqKind → Nat
  | .f => 4
  | .i8 => 1
  | .blk => tqBlockQ80Bytes

def TqKind.Val (F : Type) : TqKind → Type
  | .f => F
  | .i8 => Int8
  | .blk => TqBlockQ80

/-- How elements lie in memory, for scalars of any type. -/
abbrev TqCodec (F : Type) := Codec (TqKind.Val F) TqKind.width

def TqLoc.kind : TqLoc → TqKind
  | .f _ _ => .f
  | .i8 _ _ => .i8
  | .blk _ _ => .blk

/-- A memory of bytes, with an address for every location. -/
def TqFlat {F : Type} (c : TqCodec F) (_addr : TqLoc → Nat) : Type := Nat → c.Byte

section Flat
variable {F : Type} {c : TqCodec F} {addr : TqLoc → Nat}

instance TqFlat.memory : TqMemory F (TqFlat c addr) where
  f mem b i := c.read mem .f (addr (.f b i))
  i8 mem b i := c.read mem .i8 (addr (.i8 b i))
  blk mem b i := c.read mem .blk (addr (.blk b i))
  put mem l v :=
    match l, v with
    | .f b i, v => c.write mem .f (addr (.f b i)) v
    | .i8 b i, v => c.write mem .i8 (addr (.i8 b i)) v
    | .blk b i, v => c.write mem .blk (addr (.blk b i)) v

/-- The bytes of a location. -/
def extent (addr : TqLoc → Nat) (l : TqLoc) : Set Nat := Set.Ico (addr l) (addr l + l.kind.width)

/-- **Locations without a common byte.** -/
theorem lawful_flat {A : Set TqLoc}
    (h : ∀ l ∈ A, ∀ l' ∈ A, l' ≠ l → Disjoint (extent addr l') (extent addr l)) :
    Lawful (TqFlat c addr) A := by
  refine ⟨fun mem l _ v => ?_, fun mem l hl l' hl' hne v => ?_⟩
  · cases l with
    | f b i => exact @read_write _ _ _ c _ .f _ _
    | i8 b i => exact @read_write _ _ _ c _ .i8 _ _
    | blk b i => exact @read_write _ _ _ c _ .blk _ _
  · have hapart := h l hl l' hl' hne
    cases l with
    | f b i =>
        cases l' with
        | f b' j => exact @read_write_apart _ _ _ c _ .f .f _ _ _ hapart
        | i8 b' j => exact @read_write_apart _ _ _ c _ .f .i8 _ _ _ hapart
        | blk b' j => exact @read_write_apart _ _ _ c _ .f .blk _ _ _ hapart
    | i8 b i =>
        cases l' with
        | f b' j => exact @read_write_apart _ _ _ c _ .i8 .f _ _ _ hapart
        | i8 b' j => exact @read_write_apart _ _ _ c _ .i8 .i8 _ _ _ hapart
        | blk b' j => exact @read_write_apart _ _ _ c _ .i8 .blk _ _ _ hapart
    | blk b i =>
        cases l' with
        | f b' j => exact @read_write_apart _ _ _ c _ .blk .f _ _ _ hapart
        | i8 b' j => exact @read_write_apart _ _ _ c _ .blk .i8 _ _ _ hapart
        | blk b' j => exact @read_write_apart _ _ _ c _ .blk .blk _ _ _ hapart

end Flat

/-! ## Addresses -/

/-- The buffer of a location: which one that was carved out of the fast arena,
or out of the cache arena. -/
def TqLoc.slot : TqLoc → Nat ⊕ Nat
  | .f .x _ => .inl 0
  | .f .xb _ => .inl 1
  | .f .xb2 _ => .inl 2
  | .f .q _ => .inl 3
  | .f .hb _ => .inl 4
  | .f .hb3 _ => .inl 5
  | .f .att _ => .inl 6
  | .f .logits _ => .inl 7
  | .blk .xq _ => .inl 8
  | .blk .hq _ => .inl 9
  | .f .kb _ => .inl 10
  | .f .vb _ => .inl 11
  | .f .ropeCos _ => .inl 12
  | .f .ropeSin _ => .inl 13
  | .f .kCache _ => .inr 0
  | .i8 .kCache _ => .inr 0
  | .f .vCache _ => .inr 1
  | .i8 .vCache _ => .inr 1
  | .f .kScale _ => .inr 2
  | .f .vScale _ => .inr 3

def TqLoc.index : TqLoc → Nat
  | .f _ i => i
  | .i8 _ i => i
  | .blk _ i => i

/-- The address of a location: its buffer's, and the elements before it. -/
def tqLayout (fast cache : TqArena) (rt : TqRuntime) (l : TqLoc) : Nat :=
  match l.slot with
  | .inl k => (fast.addr + rt.fast.getD k 0 + l.index * l.kind.width) % fast.sizeMod
  | .inr k => (cache.addr + rt.cache.getD k 0 + l.index * l.kind.width) % cache.sizeMod

/-- The location of an element of a buffer. -/
def locAt (kv : TqKv) (slot : Nat ⊕ Nat) (i : Nat) : TqLoc :=
  match slot with
  | .inl 0 => .f .x i
  | .inl 1 => .f .xb i
  | .inl 2 => .f .xb2 i
  | .inl 3 => .f .q i
  | .inl 4 => .f .hb i
  | .inl 5 => .f .hb3 i
  | .inl 6 => .f .att i
  | .inl 7 => .f .logits i
  | .inl 8 => .blk .xq i
  | .inl 9 => .blk .hq i
  | .inl 10 => .f .kb i
  | .inl 11 => .f .vb i
  | .inl 12 => .f .ropeCos i
  | .inl _ => .f .ropeSin i
  | .inr 0 => if kv = .f32 then .f .kCache i else .i8 .kCache i
  | .inr 1 => if kv = .f32 then .f .vCache i else .i8 .vCache i
  | .inr 2 => .f .kScale i
  | .inr _ => .f .vScale i

section Layout
variable {m : TqModel} {fast cache : TqArena} {rt : TqRuntime} {l l' : TqLoc}

theorem kvElements_pos {kv : TqKv} {row i : Nat} (h : i < kvElements m rt kv row) :
    rt.kvDtype = kv ∧ i < m.nLayers * rt.maxSeq * row := by
  unfold kvElements at h
  split at h
  · next hkv => exact ⟨hkv, h⟩
  · exact absurd h (Nat.not_lt_zero i)

/-- The buffer and the index say which location it is. -/
theorem locAt_slot (h : l ∈ live m rt) : locAt rt.kvDtype l.slot l.index = l := by
  cases l with
  | f b i =>
      cases b with
      | kCache => exact if_pos (kvElements_pos h).1
      | vCache => exact if_pos (kvElements_pos h).1
      | _ => rfl
  | i8 b i =>
      have hkv : rt.kvDtype ≠ .f32 := (kvElements_pos h).1 ▸ by decide
      cases b with
      | kCache => exact if_neg hkv
      | vCache => exact if_neg hkv
  | blk b i =>
      cases b with
      | xq => rfl
      | hq => rfl

/-- The location lies in its buffer, for buffers of these sizes. -/
def TqLoc.Fits (fs cs : List Nat) (l : TqLoc) : Prop :=
  match l.slot with
  | .inl k => ∃ n, fs[k]? = some n ∧ (l.index + 1) * l.kind.width ≤ n
  | .inr k => ∃ n, cs[k]? = some n ∧ (l.index + 1) * l.kind.width ≤ n

theorem live_fits (h : l ∈ live m rt) :
    l.Fits (tqFastSizes m rt.maxSeq) (tqCacheSizes m rt.maxSeq rt.kvDtype) := by
  unfold TqLoc.Fits
  cases l with
  | f b i =>
      cases b with
      | kCache =>
          obtain ⟨hkv, hi⟩ := kvElements_pos h
          rw [hkv]
          exact ⟨_, rfl, Nat.mul_le_mul_right 4 hi⟩
      | vCache =>
          obtain ⟨hkv, hi⟩ := kvElements_pos h
          rw [hkv]
          exact ⟨_, rfl, Nat.mul_le_mul_right 4 hi⟩
      | kScale =>
          obtain ⟨hkv, hi⟩ := kvElements_pos h
          rw [hkv]
          exact ⟨_, rfl, Nat.mul_le_mul_right 4 hi⟩
      | vScale =>
          obtain ⟨hkv, hi⟩ := kvElements_pos h
          rw [hkv]
          exact ⟨_, rfl, Nat.mul_le_mul_right 4 hi⟩
      | _ => exact ⟨_, rfl, Nat.mul_le_mul_right 4 (Nat.succ_le_of_lt h)⟩
  | i8 b i =>
      obtain ⟨hkv, hi⟩ := kvElements_pos h
      rw [hkv]
      cases b with
      | kCache => exact ⟨_, rfl, by rw [TqLoc.kind, TqKind.width, Nat.mul_one]; exact hi⟩
      | vCache => exact ⟨_, rfl, by rw [TqLoc.kind, TqKind.width, Nat.mul_one]; exact hi⟩
  | blk b i =>
      cases b with
      | xq => exact ⟨_, rfl, Nat.mul_le_mul_right _ (Nat.succ_le_of_lt h)⟩
      | hq => exact ⟨_, rfl, Nat.mul_le_mul_right _ (Nat.succ_le_of_lt h)⟩

/-- One buffer among those that were carved. -/
theorem buffers_getElem {arena : TqArena} {offs sizes : List Nat}
    (hlen : offs.length = sizes.length) {k n : Nat} (h : sizes[k]? = some n) :
    (buffers arena offs sizes)[k]? = some ⟨arena.addr + offs.getD k 0, n⟩ := by
  obtain ⟨hk, -⟩ := List.getElem?_eq_some_iff.mp h
  have hoff : offs[k]? = some (offs.getD k 0) := by
    rw [List.getD_eq_getElem?_getD, List.getElem?_eq_getElem (hlen ▸ hk)]
    rfl
  unfold buffers
  rw [List.getElem?_zipWith, hoff, h]

theorem TqKind.width_pos (k : TqKind) : 0 < k.width := by
  cases k with
  | f => decide
  | i8 => decide
  | blk => decide

/-- Elements of one buffer have one width. -/
theorem locAt_width (kv : TqKv) (slot : Nat ⊕ Nat) (i j : Nat) :
    (locAt kv slot i).kind.width = (locAt kv slot j).kind.width := by
  unfold locAt
  split <;> first | rfl | (split <;> rfl)

/-- Elements of a buffer, one after the other. -/
theorem elements_apart {a w i j : Nat} (hne : i ≠ j) :
    Disjoint (Set.Ico (a + i * w) (a + i * w + w)) (Set.Ico (a + j * w) (a + j * w + w)) := by
  refine Set.Ico_disjoint_Ico.mpr ?_
  rcases Nat.lt_or_gt_of_ne hne with h | h
  · have hle := Nat.mul_le_mul_right w (Nat.succ_le_of_lt h)
    rw [Nat.succ_mul] at hle
    exact (min_le_left _ _).trans ((by omega : _ ≤ a + j * w).trans (le_max_right _ _))
  · have hle := Nat.mul_le_mul_right w (Nat.succ_le_of_lt h)
    rw [Nat.succ_mul] at hle
    exact (min_le_right _ _).trans ((by omega : _ ≤ a + i * w).trans (le_max_left _ _))

/-- Buffers of some sizes, at the offsets of a runtime: each in its arena and
away from the others. -/
structure Carved (fast cache : TqArena) (rt : TqRuntime) (fs cs : List Nat) : Prop where
  memory : fast.InMemory ∧ cache.InMemory
  lengths : rt.fast.length = fs.length ∧ rt.cache.length = cs.length
  inFast : ∀ r ∈ buffers fast rt.fast fs, r.stop ≤ fast.addr + fast.cap
  inCache : ∀ r ∈ buffers cache rt.cache cs, r.stop ≤ cache.addr + cache.cap
  disjoint : (buffers fast rt.fast fs ++ buffers cache rt.cache cs).Pairwise
    fun r r' => Disjoint r.addrs r'.addrs

/-- The place of a buffer in the two lists. -/
def slotIndex (n : Nat) : Nat ⊕ Nat → Nat
  | .inl k => k
  | .inr k => n + k

section Carved
variable {fs cs : List Nat}

/-- **An address** is in its buffer. -/
theorem Carved.address (h : Carved fast cache rt fs cs) (hl : l.Fits fs cs) : ∃ r : Region,
    (buffers fast rt.fast fs ++ buffers cache rt.cache cs)[slotIndex fs.length l.slot]? = some r ∧
      tqLayout fast cache rt l = r.start + l.index * l.kind.width ∧
      (l.index + 1) * l.kind.width ≤ r.size := by
  have hwidth := l.kind.width_pos
  have hlen : (buffers fast rt.fast fs).length = fs.length := by
    rw [buffers, List.length_zipWith, h.lengths.1, Nat.min_self]
  unfold TqLoc.Fits at hl
  unfold tqLayout
  cases hslot : l.slot with
  | inl k =>
      rw [hslot] at hl
      obtain ⟨n, hn, hfit⟩ := hl
      have hget := @buffers_getElem fast rt.fast fs h.lengths.1 k n hn
      have hstop := h.inFast _ (List.mem_of_getElem? hget)
      obtain ⟨hk, -⟩ := List.getElem?_eq_some_iff.mp hn
      refine ⟨⟨fast.addr + rt.fast.getD k 0, n⟩, ?_, Nat.mod_eq_of_lt ?_, hfit⟩
      · rw [slotIndex, List.getElem?_append_left (hlen.symm ▸ hk)]
        exact hget
      · have hmem := h.memory.1.stop
        rw [Nat.succ_mul] at hfit
        simp only [Region.stop] at hstop
        omega
  | inr k =>
      rw [hslot] at hl
      obtain ⟨n, hn, hfit⟩ := hl
      have hget := @buffers_getElem cache rt.cache cs h.lengths.2 k n hn
      have hstop := h.inCache _ (List.mem_of_getElem? hget)
      refine ⟨⟨cache.addr + rt.cache.getD k 0, n⟩, ?_, Nat.mod_eq_of_lt ?_, hfit⟩
      · rw [slotIndex, List.getElem?_append_right (hlen.symm ▸ Nat.le_add_right _ _), hlen,
          Nat.add_sub_cancel_left]
        exact hget
      · have hmem := h.memory.2.stop
        rw [Nat.succ_mul] at hfit
        simp only [Region.stop] at hstop
        omega

/-- Activations lie in the fast arena. -/
theorem Carved.fast_extent (h : Carved fast cache rt fs cs) {k : Nat} (hslot : l.slot = .inl k)
    (hl : ∃ n, fs[k]? = some n ∧ (l.index + 1) * l.kind.width ≤ n) :
    extent (tqLayout fast cache rt) l ⊆ Set.Ico fast.addr (fast.addr + fast.cap) := by
  obtain ⟨n, hn, hsize⟩ := hl
  have hget := @buffers_getElem fast rt.fast fs h.lengths.1 k n hn
  have hfits : l.Fits fs cs := by
    unfold TqLoc.Fits
    rw [hslot]
    exact ⟨n, hn, hsize⟩
  obtain ⟨r, hr, haddr, hsize⟩ := h.address hfits
  have hk : k < (buffers fast rt.fast fs).length := (List.getElem?_eq_some_iff.mp hget).1
  rw [hslot, slotIndex, List.getElem?_append_left hk, hget] at hr
  cases hr
  have hstop := h.inFast _ (List.mem_of_getElem? hget)
  simp only [Region.stop] at hstop
  rw [Nat.succ_mul] at hsize
  rintro b ⟨hlow, hhigh⟩
  rw [haddr] at hlow hhigh
  exact ⟨by simp only at hlow; omega, by simp only at hhigh hsize; omega⟩

/-- **Locations in their buffers** share no byte. -/
theorem Carved.lawful (h : Carved fast cache rt fs cs) {F : Type} {c : TqCodec F} {A : Set TqLoc}
    (hfits : ∀ l ∈ A, l.Fits fs cs) (hat : ∀ l ∈ A, locAt rt.kvDtype l.slot l.index = l) :
    Lawful (TqFlat c (tqLayout fast cache rt)) A := by
  refine lawful_flat fun l hl l' hl' hne => ?_
  obtain ⟨r, hr, haddr, hsize⟩ := h.address (hfits l hl)
  obtain ⟨r', hr', haddr', hsize'⟩ := h.address (hfits l' hl')
  have hin : ∀ {l : TqLoc} {r : Region}, tqLayout fast cache rt l =
      r.start + l.index * l.kind.width →
      (l.index + 1) * l.kind.width ≤ r.size → extent (tqLayout fast cache rt) l ⊆ r.addrs := by
    intro l r haddr hsize
    rw [Nat.succ_mul] at hsize
    rintro b ⟨hlow, hhigh⟩
    simp only [haddr] at hlow hhigh
    exact ⟨by omega, by simp only [Region.stop]; omega⟩
  have hregions : ∀ {i j : Nat} {r r' : Region}, i < j →
      (buffers fast rt.fast fs ++ buffers cache rt.cache cs)[i]? = some r →
      (buffers fast rt.fast fs ++ buffers cache rt.cache cs)[j]? = some r' →
      Disjoint r.addrs r'.addrs := by
    intro i j r r' hij hr hr'
    obtain ⟨hi, rfl⟩ := List.getElem?_eq_some_iff.mp hr
    obtain ⟨hj, rfl⟩ := List.getElem?_eq_some_iff.mp hr'
    exact List.pairwise_iff_getElem.mp h.disjoint i j hi hj hij
  rcases Nat.lt_trichotomy (slotIndex fs.length l.slot) (slotIndex fs.length l'.slot) with
    hlt | heq | hgt
  · exact ((hregions hlt hr hr').symm).mono (hin haddr' hsize') (hin haddr hsize)
  · -- one buffer: the index makes the difference
    have hslot : l.slot = l'.slot := by
      have hfit := hfits l hl
      have hfit' := hfits l' hl'
      unfold TqLoc.Fits at hfit hfit'
      revert heq hfit hfit'
      cases l.slot with
      | inl k =>
          cases l'.slot with
          | inl k' => exact fun heq _ _ => congrArg Sum.inl heq
          | inr k' =>
              rintro heq ⟨n, hn, -⟩ -
              obtain ⟨hk, -⟩ := List.getElem?_eq_some_iff.mp hn
              have heq : k = fs.length + k' := heq
              omega
      | inr k =>
          cases l'.slot with
          | inl k' =>
              rintro heq - ⟨n, hn, -⟩
              obtain ⟨hk, -⟩ := List.getElem?_eq_some_iff.mp hn
              have heq : fs.length + k = k' := heq
              omega
          | inr k' => exact fun heq _ _ => congrArg Sum.inr (Nat.add_left_cancel heq)
    rw [heq] at hr
    obtain rfl : r = r' := Option.some.inj (hr.symm.trans hr')
    have hindex : l'.index ≠ l.index := by
      intro hindex
      refine hne ?_
      rw [← hat l' hl', ← hat l hl, hslot, hindex]
    have hwidth : l'.kind.width = l.kind.width := by
      rw [← hat l' hl', ← hat l hl, hslot]
      exact locAt_width _ _ _ _
    unfold extent
    rw [haddr, haddr', hwidth]
    exact elements_apart hindex
  · exact (hregions hgt hr' hr).mono (hin haddr' hsize') (hin haddr hsize)

end Carved

theorem tqCarveAll_length {arena : TqArena} : ∀ {sizes offs : List Nat} {used : Nat},
    tqCarveAll arena used sizes = some offs → offs.length = sizes.length
  | [], _, _, h => by
      cases h
      rfl
  | n :: sizes, offs, used, h => by
      obtain ⟨⟨off, used'⟩, -, hrest⟩ := Option.bind_eq_some_iff.mp h
      obtain ⟨offs', hoffs, hcons⟩ := Option.bind_eq_some_iff.mp hrest
      cases hcons
      exact congrArg Nat.succ (tqCarveAll_length hoffs)

end Layout

/-- Buffers that end before a `size_t` wraps. -/
theorem Carved.of_noWrap {fast cache : TqArena} {rt : TqRuntime} {fs cs : List Nat}
    (hmem : fast.InMemory ∧ cache.InMemory) (hapart : Apart fast cache)
    (hfast : tqCarveAll fast 0 fs = some rt.fast) (hcache : tqCarveAll cache 0 cs = some rt.cache)
    (hwrapFast : NoWrap fast fs) (hwrapCache : NoWrap cache cs) : Carved fast cache rt fs cs := by
  obtain ⟨hplacedFast, htopFast⟩ := hwrapFast.buffers hmem.1.align hfast
  obtain ⟨hplacedCache, htopCache⟩ := hwrapCache.buffers hmem.2.align hcache
  refine ⟨hmem, ⟨tqCarveAll_length hfast, tqCarveAll_length hcache⟩, ?_, ?_, ?_⟩
  · rw [hplacedFast]
    exact fun r hr => (stop_le_top hr).trans htopFast
  · rw [hplacedCache]
    exact fun r hr => (stop_le_top hr).trans htopCache
  · rw [hplacedFast, hplacedCache]
    refine List.pairwise_append.mpr ⟨place_disjoint _ _, place_disjoint _ _, fun r hr r' hr' => ?_⟩
    have hstop := (stop_le_top hr).trans htopFast
    have hstop' := (stop_le_top hr').trans htopCache
    have hstart := start_le hr
    have hstart' := start_le hr'
    rcases hapart with h | h
    · exact Region.disjoint_of_le (by omega)
    · exact (Region.disjoint_of_le (by omega)).symm

/-! ## Runtimes without a size that wrapped -/

/-- What `tq_runtime_init` set up in two arrays that do not meet, for buffers
that end before a `size_t` wraps. -/
structure SetUp (m : TqModel) (maxSeq kvDtype : Int) (fast cache : TqArena) (rt : TqRuntime) :
    Prop where
  init : tqRuntimeInit m maxSeq kvDtype fast cache = .ok rt
  memory : fast.InMemory ∧ cache.InMemory
  apart : Apart fast cache
  noWrap : NoWrap fast (tqFastSizes m maxSeq.toNat) ∧
    NoWrap cache (tqCacheSizes m maxSeq.toNat (if kvDtype = 0 then .f32 else .q8))

/-- **Its elements keep what is written to them.** -/
theorem SetUp.lawful {m : TqModel} {maxSeq kvDtype : Int} {fast cache : TqArena} {rt : TqRuntime}
    (h : SetUp m maxSeq kvDtype fast cache rt) {F : Type} (c : TqCodec F) :
    Lawful (TqFlat c (tqLayout fast cache rt)) (live m rt) := by
  obtain ⟨hseq, hkv, hcarveFast, hcarveCache⟩ := tqRuntimeInit_ok h.init
  obtain ⟨hwrapFast, hwrapCache⟩ := h.noWrap
  rw [← hseq] at hwrapFast
  rw [← hseq, ← hkv] at hwrapCache
  have hcarved := Carved.of_noWrap h.memory h.apart hcarveFast hcarveCache hwrapFast hwrapCache
  exact hcarved.lawful (fun l hl => live_fits hl) fun l hl => locAt_slot hl

/-! ## A codec for scalars of any type -/

section Tags
variable {F : Type} (O : FloatOps F)

/-- Bytes that know the element they are part of; any others are read as zero. -/
def TqCodec.tags : TqCodec F :=
  Codec.tags TqKind.width_pos fun
    | .f => O.ofInt 0
    | .i8 => (0 : Int8)
    | .blk => (⟨0, fun _ => 0⟩ : TqBlockQ80)

/-- A machine before its first step, its bytes zero. -/
def TqMachine.flat (addr : TqLoc → Nat) : TqMachine (TqFlat (TqCodec.tags O) addr) :=
  ⟨fun _ => ⟨.f, O.ofInt 0⟩, 0, ⟨0, []⟩⟩

end Tags

end TinyLlm
