/-
# `TinyLlm.Forward.Arena` — the arenas of a runtime

The buffers of a runtime are carved one after the other, each at an address
that is a multiple of 16.  While no `size_t` wraps this is a bump allocator, so
a runtime is set up exactly when the last buffer ends inside its arena
(`tqCarveAll_eq`), and then the buffers are where they should be.

Two questions are asked of it: whether `tq_runtime_bytes` and `tq_kv_bytes`
set enough aside (`tqRuntimeInit_sized`), and whether what was carved is sound
when a `size_t` has 32 bits (`tqRuntimeInit_sound`).
-/
import TinyLlm.Convert.Total
import TinyLlm.Forward.Memory

namespace TinyLlm

open Bump Relational

/-! ## Carving -/

/-- The buffers as items of a bump allocator. -/
def carveItems (sizes : List Nat) : List (Nat × Nat) := sizes.map fun n => (16, n)

/-- **Carving** without wrapping. -/
theorem tqCarveAll_eq {arena : TqArena} (hmod : 16 ∣ arena.sizeMod) :
    ∀ {sizes : List Nat} {used : Nat},
    used ≤ arena.cap → top (arena.addr + used) (carveItems sizes) < arena.addr + arena.sizeMod →
      tqCarveAll arena used sizes =
        if top (arena.addr + used) (carveItems sizes) > arena.addr + arena.cap then none
        else some ((place (arena.addr + used) (carveItems sizes)).map fun r => r.start - arena.addr)
  | [], used, hused, _ => by
      show some [] = if arena.addr + used > arena.addr + arena.cap then none else some []
      rw [if_neg (Nat.not_lt.mpr (Nat.add_le_add_left hused _))]
  | n :: sizes, used, _, hfit => by
      have hlow := le_roundUp 16 (arena.addr + used)
      have hrest := le_top (carveItems sizes) (roundUp 16 (arena.addr + used) + n)
      have hfit : top (roundUp 16 (arena.addr + used) + n) (carveItems sizes) <
          arena.addr + arena.sizeMod := hfit
      have hn : n % arena.sizeMod = n := Nat.mod_eq_of_lt (by omega)
      unfold tqCarveAll
      rw [hn, tqCarve_eq hmod (by omega)]
      show _ = if top (roundUp 16 (arena.addr + used) + n) (carveItems sizes) >
        arena.addr + arena.cap then none
        else some (_ :: (place (roundUp 16 (arena.addr + used) + n) (carveItems sizes)).map _)
      by_cases hin : roundUp 16 (arena.addr + used) + n > arena.addr + arena.cap
      · rw [if_pos hin, if_pos (by omega)]
        rfl
      · have hnext : arena.addr + (roundUp 16 (arena.addr + used) + n - arena.addr) =
            roundUp 16 (arena.addr + used) + n := by omega
        have ih := @tqCarveAll_eq arena hmod sizes (roundUp 16 (arena.addr + used) + n - arena.addr)
          (by omega) (by rw [hnext]; exact hfit)
        rw [hnext] at ih
        rw [if_neg hin]
        dsimp only [Option.bind_eq_bind, Option.bind_some]
        rw [ih]
        split <;> rfl

/-- Everything fits if and only if the top does. -/
theorem tqCarveAll_isSome {arena : TqArena} (hmod : 16 ∣ arena.sizeMod) {sizes : List Nat}
    (hfit : top arena.addr (carveItems sizes) < arena.addr + arena.sizeMod) :
    (tqCarveAll arena 0 sizes).isSome ↔ top arena.addr (carveItems sizes) ≤
      arena.addr + arena.cap := by
  have heq := @tqCarveAll_eq arena hmod sizes 0 (Nat.zero_le _) hfit
  rw [Nat.add_zero] at heq
  rw [heq]
  split
  · next h => exact ⟨nofun, fun hle => absurd hle (Nat.not_le.mpr h)⟩
  · next h => exact ⟨fun _ => Nat.not_lt.mp h, fun _ => rfl⟩

/-- Items of alignment 16 take their sizes and at most fifteen bytes each. -/
theorem carve_top_le (sizes : List Nat) (s : Nat) :
    top s (carveItems sizes) ≤ s + sizes.sum + 15 * sizes.length := by
  have hitems : ∀ i ∈ carveItems sizes, i.1 = 16 := by
    intro i hi
    obtain ⟨n, -, rfl⟩ := List.mem_map.mp hi
    rfl
  have htop := top_le (by decide) hitems s
  have hsum : (carveItems sizes).map Prod.snd = sizes := by
    rw [carveItems, List.map_map]
    exact List.map_id sizes
  have hlen : (carveItems sizes).length = sizes.length := List.length_map _
  rw [hsum, hlen] at htop
  omega

/-! ## Enough set aside -/

def TqKv.code : TqKv → Int
  | .f32 => 0
  | .q8 => 1

/-- A runtime is set up when everything was carved. -/
theorem tqRuntimeInit_isOk {m : TqModel} {maxSeq : Nat} (hpos : 0 < maxSeq)
    (hle : maxSeq ≤ m.seqLen) (kv : TqKv) {fast cache : TqArena} :
    (∃ rt, tqRuntimeInit m maxSeq kv.code fast cache = .ok rt) ↔
      (tqCarveAll fast 0 (tqFastSizes m maxSeq)).isSome ∧
      (tqCarveAll cache 0 (tqCacheSizes m maxSeq kv)).isSome := by
  unfold tqRuntimeInit
  have hrange : ¬ ((maxSeq : Int) ≤ 0 ∨ (maxSeq : Int) > m.seqLen) := by omega
  have hcode : ¬ (kv.code ≠ 0 ∧ kv.code ≠ 1) := by cases kv <;> decide
  have hkv : (if kv.code = 0 then TqKv.f32 else .q8) = kv := by cases kv <;> rfl
  rw [if_neg hrange, if_neg hcode]
  dsimp only
  rw [hkv, Int.toNat_natCast]
  cases tqCarveAll fast 0 (tqFastSizes m maxSeq) with
  | none => exact ⟨fun ⟨_, h⟩ => (nomatch h), fun h => (nomatch h.1)⟩
  | some f =>
      cases tqCarveAll cache 0 (tqCacheSizes m maxSeq kv) with
      | none => exact ⟨fun ⟨_, h⟩ => (nomatch h), fun h => (nomatch h.2)⟩
      | some c => exact ⟨fun _ => ⟨rfl, rfl⟩, fun _ => ⟨_, rfl⟩⟩

section Sizes
variable {m : TqModel} {maxSeq : Nat}

/-- The values of a cache, and its scales. -/
def kvCount (m : TqModel) (maxSeq : Nat) : Nat := m.nLayers * maxSeq * m.kvDim

def kvScales (m : TqModel) (maxSeq : Nat) : Nat := m.nLayers * maxSeq * m.nKvHeads

/-- `tq_runtime_bytes` has sixteen bytes for every buffer. -/
theorem fast_sum_le : (tqFastSizes m maxSeq).sum + 16 * 14 ≤ tqRuntimeBytes 0 m maxSeq := by
  unfold tqFastSizes tqRuntimeBytes
  rw [Nat.mod_zero]
  simp only [List.sum_cons, List.sum_nil]
  omega

theorem tqRuntimeBytes_eq {sizeMod : Nat} (h : tqRuntimeBytes 0 m maxSeq < sizeMod) :
    tqRuntimeBytes sizeMod m maxSeq = tqRuntimeBytes 0 m maxSeq := by
  unfold tqRuntimeBytes at *
  rw [Nat.mod_zero] at *
  exact Nat.mod_eq_of_lt h

theorem tqAlignUp_eq {sizeMod v : Nat} (h : sizeMod = 0 ∨ v + 15 < sizeMod) :
    tqAlignUp sizeMod v 16 = roundUp 16 v := by
  have hx : (v + 16 - 1) % sizeMod = v + (16 - 1) := by
    rcases h with rfl | h
    · exact Nat.mod_zero _
    · exact Nat.mod_eq_of_lt h
  rw [roundUp_eq (by decide), tqAlignUp, hx]

/-- What `tq_kv_bytes` adds to the values and the scales is the padding behind
each array of scales, and 32 bytes. -/
theorem tqKvBytes_eq {sizeMod : Nat} {kv : TqKv} (h : tqKvBytes 0 m maxSeq kv < sizeMod) :
    tqKvBytes sizeMod m maxSeq kv = (tqCacheSizes m maxSeq kv).sum + 32 +
      match kv with
      | .f32 => 0
      | .q8 => 2 * pad 16 (kvScales m maxSeq * 4) := by
  cases kv with
  | f32 =>
      have hexact : 2 * kvCount m maxSeq * 4 + 32 < sizeMod := by
        unfold tqKvBytes at h
        dsimp only at h
        rwa [Nat.mod_zero] at h
      show (2 * kvCount m maxSeq * 4 + 32) % sizeMod =
        [kvCount m maxSeq * 4, kvCount m maxSeq * 4].sum + 32 + 0
      rw [Nat.mod_eq_of_lt hexact]
      simp only [List.sum_cons, List.sum_nil]
      omega
  | q8 =>
      have hexact : 2 * (kvCount m maxSeq + roundUp 16 (kvScales m maxSeq * 4) + 16) < sizeMod := by
        unfold tqKvBytes at h
        dsimp only at h
        rwa [Nat.mod_zero, tqAlignUp_eq (.inl rfl)] at h
      have hlow := le_roundUp 16 (kvScales m maxSeq * 4)
      have hwrap : kvScales m maxSeq * 4 + 15 < sizeMod := by omega
      show 2 * (kvCount m maxSeq + tqAlignUp sizeMod (kvScales m maxSeq * 4) 16 + 16) % sizeMod =
        [kvCount m maxSeq, kvCount m maxSeq, kvScales m maxSeq * 4,
          kvScales m maxSeq * 4].sum + 32 + 2 * pad 16 (kvScales m maxSeq * 4)
      rw [tqAlignUp_eq (.inr hwrap), Nat.mod_eq_of_lt hexact, roundUp]
      simp only [List.sum_cons, List.sum_nil]
      omega

/-- Where the byte cache ends: behind each of its arrays but the last comes
the padding of the next. -/
theorem top_q8 (s n k : Nat) : top s (carveItems [n, n, k, k]) =
    s + pad 16 s + 2 * (n + pad 16 n) + k + pad 16 k + k := by
  have hs := @roundUp_mod 16 (by decide) s
  have hn := @roundUp_mod 16 (by decide) n
  have hk := @roundUp_mod 16 (by decide) k
  have h₁ : roundUp 16 (roundUp 16 s + n) = roundUp 16 s + roundUp 16 n := by
    rw [roundUp, pad_add hs, roundUp, roundUp]
    omega
  have h₂ : roundUp 16 (roundUp 16 s + roundUp 16 n + n) =
      roundUp 16 s + roundUp 16 n + roundUp 16 n := by
    rw [roundUp, pad_add (by omega), roundUp, roundUp]
    omega
  have h₃ : roundUp 16 (roundUp 16 s + roundUp 16 n + roundUp 16 n + k) =
      roundUp 16 s + roundUp 16 n + roundUp 16 n + roundUp 16 k := by
    rw [roundUp, pad_add (by omega), roundUp, roundUp, roundUp]
    omega
  show roundUp 16 (roundUp 16 (roundUp 16 (roundUp 16 s + n) + n) + k) + k = _
  rw [h₁, h₂, h₃, roundUp, roundUp, roundUp]
  omega

/-- **Enough for a runtime**: arenas of the sizes that the two functions give
are enough, wherever they are, if and only if the cache holds floats, or the
padding in front of the byte arrays is no more than 32 bytes and the padding
behind an array of scales. -/
theorem tqRuntimeInit_sized (hpos : 0 < maxSeq) (hle : maxSeq ≤ m.seqLen) (kv : TqKv)
    {fast cache : TqArena} (hsize : 16 ∣ fast.sizeMod ∧ cache.sizeMod = fast.sizeMod)
    (hfast : fast.cap = tqRuntimeBytes fast.sizeMod m maxSeq)
    (hcache : cache.cap = tqKvBytes cache.sizeMod m maxSeq kv)
    (hruntime : tqRuntimeBytes 0 m maxSeq < fast.sizeMod)
    (hkv : tqKvBytes 0 m maxSeq kv < cache.sizeMod)
    (hend : top cache.addr (carveItems (tqCacheSizes m maxSeq kv)) < cache.addr + cache.sizeMod) :
    (∃ rt, tqRuntimeInit m maxSeq kv.code fast cache = .ok rt) ↔
      (kv = .q8 → pad 16 cache.addr + 2 * pad 16 (kvCount m maxSeq) ≤
      32 + pad 16 (kvScales m maxSeq * 4)) := by
  have hmod : 16 ∣ cache.sizeMod := hsize.2 ▸ hsize.1
  have hsum := @fast_sum_le m maxSeq
  have hlen : (tqFastSizes m maxSeq).length = 14 := rfl
  have hfastTop := carve_top_le (tqFastSizes m maxSeq) fast.addr
  rw [tqRuntimeBytes_eq hruntime] at hfast
  have hfastFits : (tqCarveAll fast 0 (tqFastSizes m maxSeq)).isSome :=
    (tqCarveAll_isSome hsize.1 (by omega)).mpr (by omega)
  rw [tqKvBytes_eq hkv] at hcache
  rw [tqRuntimeInit_isOk hpos hle, tqCarveAll_isSome hmod hend]
  cases kv with
  | f32 =>
      have hcacheTop := carve_top_le (tqCacheSizes m maxSeq .f32) cache.addr
      have htwo : (tqCacheSizes m maxSeq .f32).length = 2 := rfl
      dsimp only at hcache
      exact ⟨fun _ => nofun, fun _ => ⟨hfastFits, by omega⟩⟩
  | q8 =>
      have hsizes : tqCacheSizes m maxSeq .q8 =
        [kvCount m maxSeq, kvCount m maxSeq, kvScales m maxSeq * 4, kvScales m maxSeq * 4] := rfl
      rw [hsizes] at hcache ⊢
      rw [top_q8]
      simp only [List.sum_cons, List.sum_nil] at hcache
      constructor
      · rintro ⟨-, htop⟩ -
        omega
      · intro hpad
        exact ⟨hfastFits, by have := hpad rfl; omega⟩

end Sizes

/-- The dimensions of the smallest model, with a byte cache at an odd address. -/
theorem tqRuntimeInit_sized_small :
    let m := tqModelDims (sampleHeader 60 4 0)
    ∃ rt, tqRuntimeInit m 4 TqKv.q8.code ⟨0x20000003, tqRuntimeBytes (2 ^ 32) m 4, 2 ^ 32⟩
      ⟨0x70000001, tqKvBytes (2 ^ 32) m 4 .q8, 2 ^ 32⟩ = .ok rt := by
  intro m
  exact (@tqRuntimeInit_sized m 4 (by decide) (by decide) .q8 ⟨0x20000003,
    tqRuntimeBytes (2 ^ 32) m 4, 2 ^ 32⟩ ⟨0x70000001, tqKvBytes (2 ^ 32) m 4 .q8, 2 ^ 32⟩
    (by decide) rfl rfl (by decide) (by decide) (by decide)).mpr (by decide)

/-- Heads of width 12: three positions of a single head take 36 bytes and three
scales, and behind the address `0x70000001` the 136 bytes set aside are three
too few. -/
theorem tqRuntimeInit_nomem :
    ¬ ∀ (image : List UInt8) (bytes : UInt64) (arena : TqArena) (t t' : TqTile) (m : TqModel),
      (tqModelOpen (tqStoreInitMapped image bytes) arena).exec t = (.ok m, t') →
      ∀ (maxSeq : Nat) (kv : TqKv) (fast cache : TqArena), 0 < maxSeq → maxSeq ≤ m.seqLen →
        16 ∣ fast.sizeMod ∧ cache.sizeMod = fast.sizeMod →
        fast.cap = tqRuntimeBytes fast.sizeMod m maxSeq →
          cache.cap = tqKvBytes cache.sizeMod m maxSeq kv →
        tqRuntimeBytes 0 m maxSeq < fast.sizeMod → tqKvBytes 0 m maxSeq kv < cache.sizeMod →
        top cache.addr (carveItems (tqCacheSizes m maxSeq kv)) < cache.addr + cache.sizeMod →
        ∃ rt, tqRuntimeInit m maxSeq kv.code fast cache = .ok rt := by
  intro hall
  have hc : (Etq.smallConfig 96 32 8 1 3).Valid := by constructor <;> decide
  obtain ⟨file, m, -, hacc, hm⟩ := @Etq.smallModel_accepted _ _ _ _ _ hc (by constructor <;> decide)
    (by decide) ⟨1, 88, 2 ^ 32⟩ (by decide) (by decide) rfl
  have hopen := tqModelOpen_mapped.mpr ⟨hacc, @rfl _ (TqTile.mk 0 [])⟩
  have hsizes : tqCacheSizes m 3 .q8 = [36, 36, 12, 12] := by
    unfold tqCacheSizes
    rw [hm.nLayers, hm.kvDim, hm.nKvHeads]
  have hbytes : ∀ sizeMod, tqKvBytes sizeMod m 3 .q8 =
      2 * (36 + tqAlignUp sizeMod 12 16 + 16) % sizeMod := by
    intro sizeMod
    unfold tqKvBytes
    rw [hm.nLayers, hm.kvDim, hm.nKvHeads]
  have hfast : ∀ sizeMod, tqRuntimeBytes sizeMod m 3 = 2396 % sizeMod := by
    intro sizeMod
    unfold tqRuntimeBytes
    rw [hm.dim, hm.hiddenDim, hm.kvDim, hm.headSize, hm.nHeads, hm.vocabSize]
    rfl
  have hseq : 3 ≤ m.seqLen := hm.seqLen.ge
  have hok := hall _ _ _ _ _ m hopen 3 .q8 ⟨0x20000000, 2396, 2 ^ 32⟩ ⟨0x70000001, 136,
    2 ^ 32⟩ (by decide) hseq ⟨by decide, rfl⟩ (by rw [hfast]; rfl) (by rw [hbytes]; rfl)
    (by rw [hfast]; decide) (by rw [hbytes]; decide)
    (by rw [hsizes]; decide)
  have hcache := ((tqRuntimeInit_isOk (by decide) hseq .q8).mp hok).2
  rw [hsizes] at hcache
  revert hcache
  decide

/-! ## Sound with 32 bits -/

/-- The layer table that was carved holds every layer and lies in the arena. -/
def LayerTableSound (arena : TqArena) (m : TqModel) : Prop :=
  ∃ off used, tqCarve arena 0 (tqLayerOffsetsBytes * m.nLayers % arena.sizeMod) = some (off, used) ∧
    off + tqLayerOffsetsBytes * m.nLayers ≤ arena.cap

/-- Buffers of these sizes at these offsets. -/
def buffers (arena : TqArena) (offs sizes : List Nat) : List Region :=
  List.zipWith (fun off n => ⟨arena.addr + off, n⟩) offs sizes

section Runtime
variable (m : TqModel) (fast cache : TqArena) (rt : TqRuntime)

def fastBuffers : List Region := buffers fast rt.fast (tqFastSizes m rt.maxSeq)

def cacheBuffers : List Region := buffers cache rt.cache (tqCacheSizes m rt.maxSeq rt.kvDtype)

/-- Every buffer, measured by the elements that a decode step indexes in it,
lies in its arena, at a multiple of 16, and away from every other buffer. -/
structure BuffersSound : Prop where
  inFast : ∀ r ∈ fastBuffers m fast rt, r.stop ≤ fast.addr + fast.cap
  inCache : ∀ r ∈ cacheBuffers m cache rt, r.stop ≤ cache.addr + cache.cap
  aligned : ∀ r ∈ fastBuffers m fast rt ++ cacheBuffers m cache rt, r.start % 16 = 0
  disjoint : (fastBuffers m fast rt ++ cacheBuffers m cache rt).Pairwise
    fun r r' => Disjoint r.addrs r'.addrs

end Runtime

/-- An arena that is an array of bytes in memory. -/
structure TqArena.InMemory (arena : TqArena) : Prop where
  align : 16 ∣ arena.sizeMod
  stop : arena.addr + arena.cap ≤ arena.sizeMod

theorem TqArena.OnBoard.inMemory {arena : TqArena} (h : arena.OnBoard) : arena.InMemory := by
  refine ⟨?_, h.sizeMod ▸ h.addr_cap⟩
  rw [h.sizeMod]
  decide

/-- The buffers end before a `size_t` would wrap. -/
def NoWrap (arena : TqArena) (sizes : List Nat) : Prop :=
  top arena.addr (carveItems sizes) < arena.addr + arena.sizeMod

/-- Two arenas that do not meet. -/
def Apart (a b : TqArena) : Prop := a.addr + a.cap ≤ b.addr ∨ b.addr + b.cap ≤ a.addr

theorem buffers_place {arena : TqArena} : ∀ {sizes : List Nat} {s : Nat}, arena.addr ≤ s →
    buffers arena ((place s (carveItems sizes)).map fun r => r.start - arena.addr) sizes =
      place s (carveItems sizes)
  | [], _, _ => rfl
  | n :: sizes, s, hs => by
      have hlow := hs.trans (le_roundUp 16 s)
      have ih := @buffers_place arena sizes (roundUp 16 s + n) (hlow.trans (Nat.le_add_right _ _))
      show (⟨arena.addr + (roundUp 16 s - arena.addr), n⟩ : Region) :: _ = _ :: _
      rw [Nat.add_sub_cancel' hlow]
      exact congrArg _ ih

/-- Without wrapping the buffers are placed one after the other. -/
theorem NoWrap.buffers {arena : TqArena} {sizes offs : List Nat} (h : NoWrap arena sizes)
    (hmod : 16 ∣ arena.sizeMod) (hcarve : tqCarveAll arena 0 sizes = some offs) :
    buffers arena offs sizes = place arena.addr (carveItems sizes) ∧
      top arena.addr (carveItems sizes) ≤ arena.addr + arena.cap := by
  have heq := @tqCarveAll_eq arena hmod sizes 0 (Nat.zero_le _) h
  rw [Nat.add_zero, hcarve] at heq
  split at heq
  · cases heq
  · next hin =>
      injection heq with heq
      rw [heq]
      exact ⟨buffers_place (Nat.le_refl _), Nat.not_lt.mp hin⟩

/-- Buffers that lie in their arena did not wrap: each carve then ends where
the allocator says, and so the next begins there. -/
theorem top_le_of_inside {arena : TqArena} (hboard : arena.OnBoard) :
    ∀ {sizes offs : List Nat} {used : Nat},
    used ≤ arena.cap → tqCarveAll arena used sizes = some offs →
      (∀ r ∈ buffers arena offs sizes, r.stop ≤ arena.addr + arena.cap) →
        top (arena.addr + used) (carveItems sizes) ≤ arena.addr + arena.cap
  | [], _, used, hused, _, _ => Nat.add_le_add_left hused _
  | n :: sizes, offs, used, hused, hcarve, hin => by
      have hmod : 16 ∣ arena.sizeMod := by
        rw [hboard.sizeMod]
        decide
      have hstart := hboard.start_lt hused
      have hcap := hboard.addr_cap
      have hpos := hboard.addr_pos
      have hlow := le_roundUp 16 (arena.addr + used)
      obtain ⟨⟨off, used'⟩, hone, hrest⟩ := Option.bind_eq_some_iff.mp hcarve
      obtain ⟨offs', hoffs, hcons⟩ := Option.bind_eq_some_iff.mp hrest
      cases hcons
      have hoff : off = roundUp 16 (arena.addr + used) - arena.addr :=
        tqCarve_some hmod (by rw [hboard.sizeMod]; exact hstart) hone
      have hfirst : arena.addr + off + n ≤ arena.addr + arena.cap :=
        hin ⟨arena.addr + off, n⟩ List.mem_cons_self
      have hn : n % arena.sizeMod = n := Nat.mod_eq_of_lt (by rw [hboard.sizeMod]; omega)
      rw [hn, tqCarve_eq hmod (by rw [hboard.sizeMod]; omega), if_neg (by omega)] at hone
      have hused' : used' = roundUp 16 (arena.addr + used) + n - arena.addr := by
        injection hone with hone
        exact (congrArg Prod.snd hone).symm
      have hnext : arena.addr + used' = roundUp 16 (arena.addr + used) + n := by omega
      have ih := top_le_of_inside hboard (by omega) hoffs
        fun r hr => hin r (List.mem_cons_of_mem _ hr)
      rw [hnext] at ih
      exact ih

/-- What a call of `tq_runtime_init` that succeeded carved. -/
theorem tqRuntimeInit_ok {m : TqModel} {maxSeq kvDtype : Int} {fast cache : TqArena}
    {rt : TqRuntime} (h : tqRuntimeInit m maxSeq kvDtype fast cache = .ok rt) :
    rt.maxSeq = maxSeq.toNat ∧ rt.kvDtype = (if kvDtype = 0 then .f32 else .q8) ∧
      tqCarveAll fast 0 (tqFastSizes m rt.maxSeq) = some rt.fast ∧
      tqCarveAll cache 0 (tqCacheSizes m rt.maxSeq rt.kvDtype) = some rt.cache := by
  unfold tqRuntimeInit at h
  split at h
  · cases h
  · split at h
    · cases h
    · dsimp only at h
      revert h
      generalize (if kvDtype = 0 then TqKv.f32 else .q8) = kv
      intro h
      split at h
      · next f c hf hc =>
          cases h
          exact ⟨rfl, rfl, hf, hc⟩
      · cases h

/-- **Buffers that did not wrap** are sound. -/
theorem buffersSound_of_noWrap {m : TqModel} {maxSeq kvDtype : Int} {fast cache : TqArena}
    {rt : TqRuntime} (hfast : 16 ∣ fast.sizeMod) (hcache : 16 ∣ cache.sizeMod)
    (hapart : Apart fast cache) (hinit : tqRuntimeInit m maxSeq kvDtype fast cache = .ok rt)
    (hwrapFast : NoWrap fast (tqFastSizes m rt.maxSeq))
    (hwrapCache : NoWrap cache (tqCacheSizes m rt.maxSeq rt.kvDtype)) :
    BuffersSound m fast cache rt := by
  obtain ⟨-, -, hcarveFast, hcarveCache⟩ := tqRuntimeInit_ok hinit
  obtain ⟨hplacedFast, htopFast⟩ := hwrapFast.buffers hfast hcarveFast
  obtain ⟨hplacedCache, htopCache⟩ := hwrapCache.buffers hcache hcarveCache
  have hbufFast : fastBuffers m fast rt = place fast.addr (carveItems (tqFastSizes m rt.maxSeq)) :=
    hplacedFast
  have hbufCache : cacheBuffers m cache rt =
      place cache.addr (carveItems (tqCacheSizes m rt.maxSeq rt.kvDtype)) :=
    hplacedCache
  have hsixteen : ∀ sizes, ∀ i ∈ carveItems sizes, i.1 = 16 := by
    intro sizes i hi
    obtain ⟨n, -, rfl⟩ := List.mem_map.mp hi
    rfl
  refine ⟨?_, ?_, ?_, ?_⟩
  · intro r hr
    rw [hbufFast] at hr
    exact (stop_le_top hr).trans htopFast
  · intro r hr
    rw [hbufCache] at hr
    exact (stop_le_top hr).trans htopCache
  · intro r hr
    rw [hbufFast, hbufCache] at hr
    rcases List.mem_append.mp hr with hr | hr
    · exact start_mod (by decide) (hsixteen _) hr
    · exact start_mod (by decide) (hsixteen _) hr
  · rw [hbufFast, hbufCache]
    refine List.pairwise_append.mpr ⟨place_disjoint _ _, place_disjoint _ _, fun r hr r' hr' => ?_⟩
    have hstop := (stop_le_top hr).trans htopFast
    have hstop' := (stop_le_top hr').trans htopCache
    have hstart := start_le hr
    have hstart' := start_le hr'
    rcases hapart with h | h
    · exact Region.disjoint_of_le (by omega)
    · exact (Region.disjoint_of_le (by omega)).symm

/-- The layer table of an accepted model never wraps: the number of a layer is
spelled by three bytes. -/
theorem Accepted.layerTableSound {image : List UInt8} {bytes : UInt64}
    {arena : TqArena} {m : TqModel} (h : Accepted image bytes arena m) (hboard : arena.OnBoard) :
    LayerTableSound arena m := by
  have hmod : 16 ∣ arena.sizeMod := by
    rw [hboard.sizeMod]
    decide
  have hlayers : m.nLayers = (imageDims image).nLayers := by rw [h.model]; rfl
  have hpos : 0 < (imageDims image).nLayers := (tqModelDims_sized h.checked).nLayers_pos
  have hlt : (imageDims image).nLayers < 2 ^ 31 := by
    have hdims : (TqHeader.decode image).nLayers < 2 ^ 31 := toInt32_lt (Bytes.leAt_lt image 48 4)
    exact (Int.toNat_lt h.checked.nLayers.le).mpr hdims
  have hsmall : (imageDims image).nLayers ≤ 22978 := by
    obtain ⟨e, he⟩ := h.layerEntry (Nat.sub_lt hpos Nat.one_pos) .rmsAtt
    have hspells : e.spells = some ((imageDims image).nLayers - 1, .rmsAtt) := by
      simpa using List.find?_some he
    unfold TqTensorEntry.spells at hspells
    split at hspells
    · cases hspells
    · obtain ⟨s, -, hs⟩ := Option.map_eq_some_iff.mp hspells
      have hnumber : tqLayerNumber e.name = (imageDims image).nLayers - 1 := (Prod.mk.inj hs).1
      have := @tqLayerNumber_le e.name (by omega)
      omega
  obtain ⟨⟨off, used⟩, hcarve⟩ := Option.isSome_iff_exists.mp h.arena_fits
  have hhigh := @roundUp_lt 16 (by decide) (arena.addr + 0)
  have hn : tqLayerOffsetsBytes * (imageDims image).nLayers ≤ tqLayerOffsetsBytes * 22978 :=
    Nat.mul_le_mul_left _ hsmall
  have hbound : tqLayerOffsetsBytes * 22978 < 2 ^ 31 := by decide
  refine ⟨off, used, by rw [hlayers]; exact hcarve, ?_⟩
  rw [hlayers]
  have hlow := le_roundUp 16 (arena.addr + 0)
  rw [Nat.mod_eq_of_lt (by rw [hboard.sizeMod]; omega),
    tqCarve_eq hmod (by rw [hboard.sizeMod]; omega)] at hcarve
  split at hcarve
  · cases hcarve
  · next hin =>
      injection hcarve with hcarve
      have hoff : roundUp 16 (arena.addr + 0) - arena.addr = off := (Prod.mk.inj hcarve).1
      omega

/-- **Sound carving** with a 32-bit `size_t`: the layer table of an accepted
model and the buffers of its runtime are where they should be if and only if
the buffers end before a `size_t` wraps. -/
theorem tqRuntimeInit_sound {image : List UInt8} {bytes : UInt64} {st : TqStore}
    (hst : StoreOver image bytes st) {arena fast cache : TqArena} (harena : arena.OnBoard)
    (hfast : fast.OnBoard) (hcache : cache.OnBoard) (hapart : Apart fast cache)
    {t t' : TqTile} {m : TqModel} (hopen : (tqModelOpen st arena).exec t = (.ok m, t'))
    {maxSeq kvDtype : Int} {rt : TqRuntime}
    (hinit : tqRuntimeInit m maxSeq kvDtype fast cache = .ok rt) :
    LayerTableSound arena m ∧ BuffersSound m fast cache rt ↔
      NoWrap fast (tqFastSizes m maxSeq.toNat) ∧
        NoWrap cache (tqCacheSizes m maxSeq.toNat (if kvDtype = 0 then .f32 else .q8)) := by
  obtain ⟨hseq, hkv, hcarveFast, hcarveCache⟩ := tqRuntimeInit_ok hinit
  rw [← hkv, ← hseq]
  constructor
  · rintro ⟨-, hsound⟩
    have hnowrap : ∀ {a : TqArena} {sizes offs : List Nat}, a.OnBoard →
        tqCarveAll a 0 sizes = some offs →
        (∀ r ∈ buffers a offs sizes, r.stop ≤ a.addr + a.cap) → NoWrap a sizes := by
      intro a sizes offs hboard hcarve hin
      have htop := top_le_of_inside hboard (Nat.zero_le _) hcarve hin
      have hcap := hboard.addr_cap
      have hpos := hboard.addr_pos
      rw [Nat.add_zero] at htop
      unfold NoWrap
      rw [hboard.sizeMod]
      omega
    exact ⟨hnowrap hfast hcarveFast hsound.inFast, hnowrap hcache hcarveCache hsound.inCache⟩
  · rintro ⟨hwrapFast, hwrapCache⟩
    exact ⟨(hst.accepted hopen).layerTableSound harena,
      buffersSound_of_noWrap hfast.inMemory.align hcache.inMemory.align hapart hinit
      hwrapFast hwrapCache⟩

theorem smallBoard :
    (⟨0x20000000, 88, 2 ^ 32⟩ : TqArena).OnBoard ∧ (⟨0x20001000, 4096, 2 ^ 32⟩ : TqArena).OnBoard ∧
    (⟨0x70000001, 4096, 2 ^ 32⟩ : TqArena).OnBoard := by
  refine ⟨⟨rfl, ?_, ?_⟩, ⟨rfl, ?_, ?_⟩, rfl, ?_, ?_⟩ <;> decide

/-- The buffers of a single layer of width 32. -/
theorem small_fastSizes {m : TqModel} {seqLen : Nat} (hm : Etq.SmallDims 32 32 1 1 seqLen m)
    (maxSeq : Nat) :
    tqFastSizes m maxSeq =
      [128, 128, 128, 128, 128, 128, 1 * maxSeq * 4, 4, 34, 34, 128, 128, 64, 64] := by
  unfold tqFastSizes
  rw [hm.dim, hm.hiddenDim, hm.kvDim, hm.headSize, hm.nHeads, hm.vocabSize]
  rfl

theorem small_cacheSizes {m : TqModel} {seqLen : Nat} (hm : Etq.SmallDims 32 32 1 1 seqLen m)
    (maxSeq : Nat) :
    tqCacheSizes m maxSeq .f32 = [1 * maxSeq * 32 * 4, 1 * maxSeq * 32 * 4] := by
  unfold tqCacheSizes
  rw [hm.nLayers, hm.kvDim]

/-- The smallest model, with arenas that are large enough. -/
theorem tqRuntimeInit_sound_small : ∃ m rt,
    tqRuntimeInit m 4 0 ⟨0x20001000, 4096, 2 ^ 32⟩ ⟨0x70000001, 4096, 2 ^ 32⟩ = .ok rt ∧
      BuffersSound m ⟨0x20001000, 4096, 2 ^ 32⟩ ⟨0x70000001, 4096, 2 ^ 32⟩ rt := by
  have hc : (Etq.smallConfig 32 32 1 1 4).Valid := by constructor <;> decide
  obtain ⟨file, m, -, hacc, hm⟩ := @Etq.smallModel_accepted _ _ _ _ _ hc (by constructor <;> decide)
    (by decide) ⟨0x20000000, 88, 2 ^ 32⟩ (by decide) (by decide) rfl
  have hopen := tqModelOpen_mapped.mpr ⟨hacc, @rfl _ (TqTile.mk 0 [])⟩
  have hfast : tqFastSizes m 4 = [128, 128, 128, 128, 128, 128, 16, 4, 34, 34, 128, 128, 64, 64] :=
    small_fastSizes hm 4
  have hcache : tqCacheSizes m 4 .f32 = [512, 512] := small_cacheSizes hm 4
  have hseq : 4 ≤ m.seqLen := hm.seqLen.ge
  obtain ⟨hboard, hboardFast, hboardCache⟩ := smallBoard
  obtain ⟨rt, hrt⟩ := (@tqRuntimeInit_isOk m 4 (by decide) hseq .f32 ⟨0x20001000, 4096, 2 ^ 32⟩
    ⟨0x70000001, 4096, 2 ^ 32⟩).mpr ⟨by rw [hfast]; decide, by rw [hcache]; decide⟩
  refine ⟨m, rt, hrt,
    ((tqRuntimeInit_sound .mapped hboard hboardFast hboardCache (.inl (by decide)) hopen hrt).mpr
    ⟨?_, ?_⟩).2⟩
  · show NoWrap _ (tqFastSizes m 4)
    rw [hfast]
    unfold NoWrap
    decide
  · show NoWrap _ (tqCacheSizes m 4 .f32)
    rw [hcache]
    unfold NoWrap
    decide

/-- A context of 2^30 positions: the attention buffer and both halves of the
cache have sizes that are multiples of 2^32, so nothing is carved for them, and
4096 bytes are enough for everything. -/
theorem tqRuntimeInit_wraps :
    ¬ ∀ (image : List UInt8) (bytes : UInt64) (arena fast cache : TqArena) (t
      t' : TqTile) (m : TqModel)
      (maxSeq kvDtype : Int) (rt : TqRuntime), arena.OnBoard → fast.OnBoard → cache.OnBoard →
        Apart fast cache →
        (tqModelOpen (tqStoreInitMapped image bytes) arena).exec t = (.ok m, t') →
        tqRuntimeInit m maxSeq kvDtype fast cache = .ok rt →
        LayerTableSound arena m ∧ BuffersSound m fast cache rt := by
  intro hall
  have hc : (Etq.smallConfig 32 32 1 1 (2 ^ 30)).Valid := by constructor <;> decide
  obtain ⟨file, m, -, hacc, hm⟩ := @Etq.smallModel_accepted _ _ _ _ _ hc (by constructor <;> decide)
    (by decide) ⟨0x20000000, 88, 2 ^ 32⟩ (by decide) (by decide) rfl
  have hopen := tqModelOpen_mapped.mpr ⟨hacc, @rfl _ (TqTile.mk 0 [])⟩
  have hfast : tqFastSizes m (2 ^ 30) =
      [128, 128, 128, 128, 128, 128, 2 ^ 32, 4, 34, 34, 128, 128, 64, 64] :=
      small_fastSizes hm (2 ^ 30)
  have hcache : tqCacheSizes m (2 ^ 30) .f32 = [2 ^ 37, 2 ^ 37] := small_cacheSizes hm (2 ^ 30)
  have hseq : 2 ^ 30 ≤ m.seqLen := hm.seqLen.ge
  obtain ⟨hboard, hboardFast, hboardCache⟩ := smallBoard
  obtain ⟨rt, hrt⟩ :=
    (@tqRuntimeInit_isOk m (2 ^ 30) (by decide) hseq .f32 ⟨0x20001000, 4096, 2 ^ 32⟩ ⟨0x70000001,
    4096, 2 ^ 32⟩).mpr ⟨by rw [hfast]; decide, by rw [hcache]; decide⟩
  obtain ⟨-, hsound⟩ := hall _ _ _ _ _ _ _ m _ _ rt hboard hboardFast hboardCache
    (.inl (by decide)) hopen hrt
  obtain ⟨hrtSeq, hrtKv, -, hcarve⟩ := tqRuntimeInit_ok hrt
  have hrtSeq : rt.maxSeq = 2 ^ 30 := hrtSeq
  have hrtKv : rt.kvDtype = .f32 := hrtKv
  have htop := top_le_of_inside hboardCache (Nat.zero_le _) hcarve hsound.inCache
  rw [hrtSeq, hrtKv, hcache] at htop
  revert htop
  decide

end TinyLlm
