/-
# `TinyLlm.Forward.History` — what a step remembers

A step reads three things: the store, its token and position, and the rows of
the cache before its position.  Every activation it uses it writes first, and
the only rows that it writes are those of its own position.  So two runtimes
that agree on the rows below a position answer a step there alike and then
agree on one more row (`tqForwardAt_touches`), whatever else their buffers held.

  a run from position 0      is the same on any two runtimes
  a step at `k` or behind    leaves the rows below `k` alone

and from the two, a runtime that is taken back to an earlier position continues
as a fresh one would (`logitsSeen_rewound`).
-/
import TinyLlm.Forward.Arena
import TinyLlm.Forward.Footprint

namespace TinyLlm

open Loop Bytes Relational Footprints

/-! ## Reading the store -/

section Store
variable {F : Type} (O : FloatOps F) (st : TqStore) {R W : Set TqLoc}

theorem onMem_touches {op : TqMem F → TqMem F} (h : Footprint R W op) :
    Touches TqMachine.mem R W (onMem op) :=
  Touches.modify h fun _ => rfl

/-- What is read through a view is up to the store. -/
theorem viewed_exec {M : Type} (off n k : Nat) (rc : TqStatus) (s : TqMachine M) : ∃ t,
    (onTile (viewOr st off n rc) >>= fun v => onTile (deref v k)).exec s =
      ((match st.fetch off n with
        | none => .error (.status rc)
        | some (bs, len) => if k ≤ len then .ok (bs.take k) else .error .overrun),
        { s with tile := t }) := by
  have hview := viewOr_exec st off n rc s.tile
  have hexec := onTile_exec (viewOr st off n rc) s
  cases hf : st.fetch off n with
  | none =>
      rw [hf] at hview
      obtain ⟨t, hv⟩ := hview
      rw [hv] at hexec
      exact ⟨t, exec_bind_error hexec⟩
  | some found =>
      obtain ⟨bs, len⟩ := found
      rw [hf] at hview
      obtain ⟨v, t, hv, hbehind⟩ := hview
      rw [hv] at hexec
      refine ⟨t, (exec_bind_ok hexec).trans ?_⟩
      rw [onTile_exec, hbehind k]

theorem viewed_touches (off n k : Nat) (rc : TqStatus)
    {f : List UInt8 → Tq (TqMachine (TqMem F)) Unit} (hf : ∀ bs, Touches TqMachine.mem R W (f bs)) :
    Touches TqMachine.mem R W
      (onTile (viewOr st off n rc) >>= fun v => onTile (deref v k) >>= f) := by
  rw [← bind_assoc]
  refine Touches.bind (fun s => ?_) (fun s t => ?_) hf
  · obtain ⟨t, h⟩ := viewed_exec st off n k rc s
    rw [h]
  · obtain ⟨_, h⟩ := viewed_exec st off n k rc s
    obtain ⟨_, h'⟩ := viewed_exec st off n k rc t
    rw [h, h']

theorem tqRowToFloat_touches (baseOff row : Nat) (out : TqBuf) {dtype n : Nat}
    (hdtype : dtype = tqDtQ40 ∨ dtype = tqDtQ80) (hn : tqGroupSize ∣ n) :
    Touches TqMachine.mem ∅ (span out 0 n) (tqRowToFloat O st baseOff dtype n row out) := by
  unfold tqRowToFloat
  dsimp only
  refine Touches.ite (fun _ => Touches.throw_bind) fun _ => ?_
  exact viewed_touches st _ _ _ _ fun bs => onMem_touches (dequantize_footprint O out bs hdtype hn)

theorem tqNorm_touches (out src : TqBuf) (wOff n : Nat) (eps : F) :
    Touches TqMachine.mem (span src 0 n) (span out 0 n) (tqNorm O st out src wOff n eps) := by
  unfold tqNorm
  exact viewed_touches st _ _ _ _ fun bs => onMem_touches (tqRmsnorm_footprint O out src _ n eps)

theorem span_append (b : TqBuf) (a n k : Nat) :
    span b a n ∪ span b (a + n) k = span b a (n + k) := by
  ext l
  constructor
  · rintro (⟨i, hi, rfl⟩ | ⟨i, hi, rfl⟩)
    · exact mem_span_add (by omega)
    · exact mem_span (by omega) (by omega)
  · rintro ⟨i, hi, rfl⟩
    rcases Nat.lt_or_ge i n with h | h
    · exact .inl (mem_span_add h)
    · exact .inr (mem_span (by omega) (by omega))

theorem span_empty (b : TqBuf) (a : Nat) : span b a 0 = ∅ :=
  Set.eq_empty_of_forall_notMem fun _ ⟨_, hi, _⟩ => absurd hi (Nat.not_lt_zero _)

/-- The rows that are left, as many at a time as the tile holds. -/
theorem tqMatvecLoop_touches (out : TqBuf) (wOff rowBytes nb : Nat) {dtype d rowsPerTile : Nat}
    (acts : TqQuant) (hdtype : dtype = tqDtQ40 ∨ dtype = tqDtQ80) (hrows : 0 < rowsPerTile) :
    ∀ fuel i, d ≤ i + fuel → Touches TqMachine.mem (blocks acts nb) (span out i (d - i))
      (tqMatvecLoop O st out wOff dtype rowBytes nb d rowsPerTile acts fuel i)
  | 0, i, hfuel => by
      rw [Nat.sub_eq_zero_of_le (show d ≤ i from hfuel), span_empty]
      exact Touches.pure
  | fuel + 1, i, hfuel => by
      rw [tqMatvecLoop]
      by_cases hlt : i < d
      · rw [if_pos hlt]
        dsimp only
        have hpos : 0 < min (d - i) rowsPerTile := Nat.lt_min.mpr ⟨by omega, hrows⟩
        have hle : min (d - i) rowsPerTile ≤ d - i := Nat.min_le_left _ _
        generalize min (d - i) rowsPerTile = chunk at hpos hle
        have hsplit := span_append out i chunk (d - (i + chunk))
        rw [show chunk + (d - (i + chunk)) = d - i by omega] at hsplit
        have hknown : ¬ (dtype ≠ tqDtQ40 ∧ dtype ≠ tqDtQ80) := by
          rcases hdtype with rfl | rfl <;> decide
        simp only [hknown, if_false]
        rw [← hsplit]
        refine viewed_touches st _ _ _ _ fun ws => ?_
        refine (onMem_touches (tqDotRows_footprint O out dtype rowBytes nb acts ws i chunk)).seq
          (tqMatvecLoop_touches out wOff rowBytes nb acts hdtype hrows fuel (i + chunk) (by omega))
          Set.subset_union_left
      · rw [if_neg hlt, Nat.sub_eq_zero_of_le (Nat.not_lt.mp hlt), span_empty]
        exact Touches.pure

/-- **A matrix** reads its blocks and fills its output. -/
theorem tqMatvec_touches (out : TqBuf) (wOff n d : Nat) {dtype : Nat} (acts : TqQuant)
    (hdtype : dtype = tqDtQ40 ∨ dtype = tqDtQ80) :
    Touches TqMachine.mem (blocks acts (n / tqGroupSize)) (span out 0 d)
      (tqMatvec O st out wOff dtype n d acts) := by
  unfold tqMatvec
  dsimp only
  refine Touches.ite (fun _ => Touches.throw_bind) fun hrow => ?_
  have hcount : Touches TqMachine.mem (blocks acts (n / tqGroupSize)) ∅ (modify fun s =>
      { s with bytesRead := (s.bytesRead + tqDtypeNbytes dtype n * d) % 2 ^ 64 } : Tq
        (TqMachine (TqMem F)) Unit) :=
    Touches.modify Footprint.id fun _ => rfl
  rw [← Set.empty_union (span out 0 d)]
  refine hcount.seq ?_ Set.subset_union_left
  cases st.backing with
  | mapped base =>
      dsimp only
      refine Touches.ite (fun _ => Touches.throw_bind) fun _ => ?_
      rw [if_neg (by rcases hdtype with rfl | rfl <;> decide)]
      have hderef : ∀ s : TqMachine (TqMem F),
          (onTile (deref (.direct (base.drop wOff)) (tqDtypeNbytes dtype n * d))).exec s =
          (if tqDtypeNbytes dtype n * d ≤ (base.drop wOff).length then
            .ok ((base.drop wOff).take (tqDtypeNbytes dtype n * d))
          else .error .overrun, s) := fun s => by
        rw [onTile_exec, behind_direct]
      refine Touches.bind (fun s => by rw [hderef]) (fun s t => by rw [hderef, hderef]) fun ws => ?_
      exact onMem_touches (tqDotRows_footprint O out dtype _ _ acts ws 0 d)
  | stream read tileBytes =>
      dsimp only
      refine Touches.ite (fun _ => Touches.throw_bind) fun hfit => ?_
      have hrows : 0 < tileBytes.toNat / tqDtypeNbytes dtype n :=
        Nat.div_pos (Nat.not_lt.mp hfit) (Nat.pos_of_ne_zero (not_or.mp hrow).1)
      exact tqMatvecLoop_touches O st out wOff _ _ acts hdtype hrows d 0 (Nat.le_add_left d 0)

end Store

/-! ## Layers -/

section Layers
variable {F : Type} (O : FloatOps F) (st : TqStore) (m : TqModel) (rt : TqRuntime)

/-- Everything but the cache. -/
def activations : Set TqLoc := {l | match l with
  | .f .kCache _ => False
  | .f .vCache _ => False
  | .f .kScale _ => False
  | .f .vScale _ => False
  | .i8 _ _ => False
  | _ => True}

theorem activations_not_cache {l : TqLoc} (h : l ∈ activations) (layer pos : Nat) :
    l ∉ cacheRow m rt layer pos := by
  unfold cacheRow
  dsimp only
  cases rt.kvDtype with
  | f32 =>
      rintro (⟨i, -, rfl⟩ | ⟨i, -, rfl⟩)
      · exact h
      · exact h
  | q8 =>
      rintro ((⟨i, -, rfl⟩ | ⟨i, -, rfl⟩) | ⟨i, -, rfl⟩ | ⟨i, -, rfl⟩)
      · exact h
      · exact h
      · exact h
      · exact h

theorem span_activations {b : TqBuf} {a n : Nat} (hb : ∀ i, TqLoc.f b i ∈ activations) :
    span b a n ⊆ activations := by
  rintro l ⟨i, -, rfl⟩
  exact hb (a + i)

theorem blocks_activations (b : TqQuant) (n : Nat) : blocks b n ⊆ activations := by
  rintro l ⟨i, -, rfl⟩
  trivial

/-- What a layer reads of what was there before: the activation that runs
through, the rotation of the position and the rows below. -/
def layerReads (layer pos : Nat) : Set TqLoc :=
  span .x 0 m.dim ∪ ropeTables m ∪ cacheUpTo m rt layer pos

variable {m}

/-- The attention half writes the row of its position, and else only activations. -/
theorem tqAttention_touches (hm : m.Sized) (layer pos : Nat) (invSqrtHs : F) :
    ∃ W, cacheRow m rt layer pos ⊆ W ∧ W ⊆ activations ∪ cacheRow m rt layer pos ∧
      Touches TqMachine.mem (layerReads m rt layer pos) W
      (tqAttention O st m rt layer pos invSqrtHs) := by
  have hdim : m.headSize ∣ m.dim := ⟨m.nHeads, by rw [← hm.heads, Nat.mul_comm]⟩
  have hkvDim : m.headSize ∣ m.kvDim := ⟨m.nKvHeads, hm.kv⟩
  have hmat := fun out wOff n d acts => tqMatvec_touches O st out wOff n d acts hm.quantized
  have hheads := @Footprint.forUp TqLoc (TqVal F) (span .q 0 m.dim ∪ cacheUpTo m rt layer (pos + 1))
    (fun h mem => tqAttendHead O m rt layer pos h invSqrtHs mem) m.nHeads _ fun h hh =>
      (@tqAttendHead_footprint F O m rt hm layer pos h hh invSqrtHs).mono Set.subset_union_left
  unfold tqAttention
  dsimp only
  refine ⟨_, ?_, ?_,
    (tqNorm_touches O st .xb .x (m.layers layer .rmsAtt) m.dim (normEps O m)).andThen ?_ <|
    (onMem_touches (tqQuantizeMem_footprint O .xb .xq m.dim)).andThen ?_ <|
    (hmat .q (m.layers layer .wq) m.dim m.dim .xq).andThen ?_ <|
    (hmat .kb (m.layers layer .wk) m.dim m.kvDim .xq).andThen ?_ <|
    (hmat .vb (m.layers layer .wv) m.dim m.kvDim .xq).andThen ?_ <|
    (onMem_touches (tqRopeApply_footprint O m .q hm.headSize_pos hdim)).andThen ?_ <|
    (onMem_touches (tqRopeApply_footprint O m .kb hm.headSize_pos hkvDim)).andThen ?_ <|
    (onMem_touches (@tqKvStore_footprint F O m rt hm.kv layer pos)).andThen ?_ <|
    (onMem_touches hheads).andThen ?_ <|
    (onMem_touches (tqQuantizeMem_footprint O .xb .xq m.dim)).andThen ?_ <|
    (hmat .xb2 (m.layers layer .wo) m.dim m.dim .xq).andThen ?_ <|
    (onMem_touches (tqAddInto_footprint O .x .xb2 m.dim)).mono ?_⟩
  · intro l hl
    simp only [Set.mem_union]
    tauto
  · have hspan : ∀ {b : TqBuf} {a n : Nat}, (∀ i, TqLoc.f b i ∈ activations) →
        span b a n ⊆ activations ∪ cacheRow m rt layer pos := fun hb =>
      (span_activations hb).trans Set.subset_union_left
    have hblocks : ∀ b n, blocks b n ⊆ activations ∪ cacheRow m rt layer pos := fun b n =>
      (blocks_activations b n).trans Set.subset_union_left
    have hattend : (⋃ h < m.nHeads, span .att (h * rt.maxSeq) (pos + 1) ∪
        span .xb (h * m.headSize) m.headSize) ⊆ activations ∪ cacheRow m rt layer pos :=
      Set.iUnion₂_subset fun h _ =>
      Set.union_subset (hspan fun _ => trivial) (hspan fun _ => trivial)
    exact Set.union_subset (hspan fun _ => trivial) <| Set.union_subset (hblocks _ _) <|
      Set.union_subset (hspan fun _ => trivial) <| Set.union_subset (hspan fun _ => trivial) <|
      Set.union_subset (hspan fun _ => trivial) <| Set.union_subset (hspan fun _ => trivial) <|
      Set.union_subset (hspan fun _ => trivial) <| Set.union_subset Set.subset_union_right <|
      Set.union_subset hattend <| Set.union_subset (hblocks _ _) <|
      Set.union_subset (hspan fun _ => trivial) (hspan fun _ => trivial)
  -- each part reads what the layer reads and what a part before it wrote
  all_goals
    intro l hl
    simp only [layerReads, cacheUpTo_succ, Set.mem_union] at hl ⊢
    tauto

/-- The feed-forward half writes activations only. -/
theorem tqFeedForward_touches (hm : m.Sized) (layer : Nat) : ∃ W ⊆ activations,
    Touches TqMachine.mem (span .x 0 m.dim) W (tqFeedForward O st m layer) := by
  have hmat := fun out wOff n d acts => tqMatvec_touches O st out wOff n d acts hm.quantized
  unfold tqFeedForward
  dsimp only
  refine ⟨_, ?_,
    (tqNorm_touches O st .xb .x (m.layers layer .rmsFfn) m.dim (normEps O m)).andThen ?_ <|
    (onMem_touches (tqQuantizeMem_footprint O .xb .xq m.dim)).andThen ?_ <|
    (hmat .hb (m.layers layer .w1) m.dim m.hiddenDim .xq).andThen ?_ <|
    (hmat .hb3 (m.layers layer .w3) m.dim m.hiddenDim .xq).andThen ?_ <|
    (onMem_touches (tqSwiglu_footprint O m.hiddenDim)).andThen ?_ <|
    (onMem_touches (tqQuantizeMem_footprint O .hb .hq m.hiddenDim)).andThen ?_ <|
    (hmat .xb2 (m.layers layer .w2) m.hiddenDim m.dim .hq).andThen ?_ <|
    (onMem_touches (tqAddInto_footprint O .x .xb2 m.dim)).mono ?_⟩
  · exact Set.union_subset (span_activations fun _ => trivial) <|
      Set.union_subset (blocks_activations _ _) <|
      Set.union_subset (span_activations fun _ => trivial) <|
      Set.union_subset (span_activations fun _ => trivial) <|
      Set.union_subset (span_activations fun _ => trivial) <|
      Set.union_subset (blocks_activations _ _) <|
      Set.union_subset (span_activations fun _ => trivial) (span_activations fun _ => trivial)
  · exact Set.Subset.refl _
  all_goals
    intro l hl
    simp only [Set.mem_union] at hl ⊢
    tauto

/-- A layer: its row is filled, from the rows below and what runs through. -/
theorem layer_touches (hm : m.Sized) (layer pos : Nat) (invSqrtHs : F) :
    ∃ W, cacheRow m rt layer pos ⊆ W ∧ W ⊆ activations ∪ cacheRow m rt layer pos ∧
      Touches TqMachine.mem (layerReads m rt layer pos) W (do
        tqAttention O st m rt layer pos invSqrtHs
        tqFeedForward O st m layer) := by
  obtain ⟨W, hrow, hin, hatt⟩ := tqAttention_touches O st rt hm layer pos invSqrtHs
  obtain ⟨W', hin', hffn⟩ := tqFeedForward_touches O st hm layer
  refine ⟨W ∪ W', hrow.trans Set.subset_union_left, ?_,
    hatt.seq hffn fun l hl => .inl (.inl (.inl hl))⟩
  exact Set.union_subset hin (hin'.trans Set.subset_union_left)

/-! ## A step -/

variable (m)

/-- The rows of every layer below a position. -/
def cached (n : Nat) : Set TqLoc := ⋃ l < m.nLayers, cacheUpTo m rt l n

variable {m}

theorem mem_cached {l : TqLoc} {n : Nat} :
    l ∈ cached m rt n ↔ ∃ layer < m.nLayers, ∃ t < n, l ∈ cacheRow m rt layer t := by
  unfold cached cacheUpTo
  simp only [Set.mem_iUnion, exists_prop]

/-- **A step**: from the rows below its position it makes the logits and one
more row for each layer. -/
theorem tqForwardAt_touches (hm : m.Sized) (token pos : Nat) : ∃ W,
    (∀ layer < m.nLayers, cacheRow m rt layer pos ⊆ W) ∧ span .logits 0 m.vocabSize ⊆ W ∧
      W ⊆ activations ∪ (⋃ layer < m.nLayers, cacheRow m rt layer pos) ∧
      Touches TqMachine.mem (cached m rt pos) W (tqForwardAt O st m rt token pos) := by
  obtain ⟨S, hS⟩ := Classical.axiomOfChoice fun layer =>
    layer_touches O st rt hm layer pos (O.div (O.ofInt 1) (O.sqrt (O.ofInt m.headSize)))
  have hlayers : Touches TqMachine.mem (cached m rt pos ∪ span .x 0 m.dim ∪ ropeTables m) (⋃ l <
      m.nLayers, S l) (forUpTo m.nLayers fun l => do
        tqAttention O st m rt l pos (O.div (O.ofInt 1) (O.sqrt (O.ofInt m.headSize)))
        tqFeedForward O st m l) := by
    refine Touches.forUpTo fun i hi => (hS i).2.2.mono ?_
    have hrows : cacheUpTo m rt i pos ⊆ cached m rt pos :=
      Set.subset_iUnion₂_of_subset i hi (Set.Subset.refl _)
    intro l hl
    rcases hl with (hl | hl) | hl
    · exact .inl (.inl (.inr hl))
    · exact .inl (.inr hl)
    · exact .inl (.inl (.inl (hrows hl)))
  unfold tqForwardAt
  dsimp only
  refine ⟨_, ?_, ?_, ?_,
    (tqRowToFloat_touches O st m.tokEmb token .x hm.quantized hm.dim_blocks).andThen ?_ <|
    (onMem_touches (tqRopePrepare_footprint O m pos)).andThen ?_ <| hlayers.andThen ?_ <|
    (tqNorm_touches O st .x .x m.rmsFinal m.dim (normEps O m)).andThen ?_ <|
    (onMem_touches (tqQuantizeMem_footprint O .x .xq m.dim)).andThen ?_ <|
    (tqMatvec_touches O st .logits m.classifier m.dim m.vocabSize .xq hm.quantized).mono ?_⟩
  · intro layer hlayer l hl
    exact .inr (.inr (.inl (Set.mem_iUnion₂.mpr ⟨layer, hlayer, (hS layer).1 hl⟩)))
  · exact fun l hl => .inr (.inr (.inr (.inr (.inr hl))))
  · have hspan : ∀ {b : TqBuf} {a n : Nat}, (∀ i, TqLoc.f b i ∈ activations) →
        span b a n ⊆ activations ∪ (⋃ layer < m.nLayers, cacheRow m rt layer pos) := fun hb =>
      (span_activations hb).trans Set.subset_union_left
    refine Set.union_subset (hspan fun _ => trivial) <|
      Set.union_subset (Set.union_subset (hspan fun _ => trivial) (hspan fun _ => trivial)) <|
      Set.union_subset (Set.iUnion₂_subset fun layer hlayer => (hS layer).2.1.trans ?_) <|
      Set.union_subset (hspan fun _ => trivial) <|
      Set.union_subset ((blocks_activations _ _).trans Set.subset_union_left)
      (hspan fun _ => trivial)
    exact Set.union_subset_union_right _
      (Set.subset_iUnion₂_of_subset layer hlayer (Set.Subset.refl _))
  · exact Set.empty_subset _
  · exact Set.empty_subset _
  all_goals
    intro l hl
    simp only [Set.mem_union] at hl ⊢
    tauto

/-- The row that a location of the cache belongs to. -/
def rowOf (m : TqModel) : TqLoc → Nat
  | .f .kScale i => i / m.nKvHeads
  | .f .vScale i => i / m.nKvHeads
  | .f _ i => i / m.kvDim
  | .i8 _ i => i / m.kvDim
  | .blk _ i => i / m.kvDim

theorem rowOf_cacheRow {l : TqLoc} {layer t : Nat} (h : l ∈ cacheRow m rt layer t) :
    rowOf m l = kvRow rt layer t := by
  have hdiv : ∀ {r n i : Nat}, i < n → (r * n + i) / n = r := fun {r n i} hi => by
    rw [Nat.mul_comm, Nat.mul_add_div (Nat.zero_lt_of_lt hi), Nat.div_eq_of_lt hi, Nat.add_zero]
  unfold cacheRow at h
  dsimp only at h
  split at h
  · rcases h with ⟨i, hi, rfl⟩ | ⟨i, hi, rfl⟩
    · exact hdiv hi
    · exact hdiv hi
  · rcases h with (⟨i, hi, rfl⟩ | ⟨i, hi, rfl⟩) | ⟨i, hi, rfl⟩ | ⟨i, hi, rfl⟩
    · exact hdiv hi
    · exact hdiv hi
    · exact hdiv hi
    · exact hdiv hi

/-- A row below a position is no row of the position. -/
theorem cached_disjoint {l : TqLoc} {k pos : Nat} (hk : k ≤ pos) (hpos : pos < rt.maxSeq)
    (h : l ∈ cached m rt k) :
    l ∉ activations ∪ (⋃ layer < m.nLayers, cacheRow m rt layer pos) := by
  obtain ⟨layer, -, t, ht, hl⟩ := (mem_cached rt).mp h
  rintro (hact | hrow)
  · exact activations_not_cache m rt hact layer t hl
  · obtain ⟨layer', -, hl'⟩ := Set.mem_iUnion₂.mp hrow
    have hrows : layer * rt.maxSeq + t = layer' * rt.maxSeq + pos :=
      (rowOf_cacheRow rt hl).symm.trans (rowOf_cacheRow rt hl')
    have hmod : (layer * rt.maxSeq + t) % rt.maxSeq = (layer' * rt.maxSeq + pos) % rt.maxSeq :=
      congrArg (· % rt.maxSeq) hrows
    rw [Nat.mul_comm, Nat.mul_add_mod, Nat.mul_comm, Nat.mul_add_mod, Nat.mod_eq_of_lt (by omega),
      Nat.mod_eq_of_lt hpos] at hmod
    omega

/-- **Determinism**: runtimes that agree on the rows below a position answer
there alike, and then agree on one more row. -/
theorem tqForward_det (hm : m.Sized) (token : Int) (pos : Nat) :
    Rel alike (fun s t : TqMachine (TqMem F) => Agree (cached m rt pos) s.mem t.mem)
      (tqForward O st m rt token pos)
      (tqForward O st m rt token pos) fun _ _ s t =>
        Agree (cached m rt (pos + 1) ∪ span .logits 0 m.vocabSize) s.mem t.mem := by
  unfold tqForward
  refine Rel.ite (fun _ => Rel.throw id) fun _ => ?_
  refine Rel.ite (fun _ => Rel.throw id) fun _ => ?_
  obtain ⟨W, hrows, hlogits, -, hstep⟩ := tqForwardAt_touches O st rt hm token.toNat
    (pos : Int).toNat
  rw [Int.toNat_natCast] at hrows hstep ⊢
  refine (hstep.agree (Set.Subset.refl _)).conseq (fun _ _ h => h) fun _ _ s t h => h.mono ?_
  refine Set.union_subset (fun l hl => ?_) (hlogits.trans Set.subset_union_right)
  obtain ⟨layer, hlayer, i, hi, hrow⟩ := (mem_cached rt).mp hl
  rcases Nat.lt_succ_iff_lt_or_eq.mp hi with hlt | rfl
  · exact .inl ((mem_cached rt).mpr ⟨layer, hlayer, i, hlt, hrow⟩)
  · exact .inr (hrows layer hlayer hrow)

/-- **Frame**: a step leaves the rows below its position alone, also when it fails. -/
theorem tqForward_keeps (hm : m.Sized) (token : Int) {k pos : Nat} (hk : k ≤ pos) :
    Keeps (fun s t : TqMachine (TqMem F) => Agree (cached m rt k) s.mem t.mem)
      (tqForward O st m rt token pos) := by
  unfold tqForward
  intro s
  by_cases htoken : token < 0 ∨ token ≥ m.vocabSize
  · rw [if_pos htoken]
    exact fun _ _ => rfl
  · by_cases hpos : (pos : Int) < 0 ∨ (pos : Int) ≥ rt.maxSeq
    · rw [if_neg htoken, if_pos hpos]
      exact fun _ _ => rfl
    · rw [if_neg htoken, if_neg hpos]
      obtain ⟨W, -, -, hin, hstep⟩ := tqForwardAt_touches O st rt hm token.toNat (pos : Int).toNat
      rw [Int.toNat_natCast] at hin hstep ⊢
      intro l hl
      exact (hstep.frame s l fun hw => cached_disjoint rt hk (by omega) hl (hin hw)).symm

/-! ## Runs -/

/-- **A run** shows the same on machines that agree on the rows below its start. -/
theorem logitsSeen_agree (hm : m.Sized) :
    ∀ (tokens : List Int) (k : Nat) {s t : TqMachine (TqMem F)},
    Agree (cached m rt k) s.mem t.mem →
    logitsSeen m.vocabSize (tqFeed O st m rt (callsFrom k tokens) s) =
      logitsSeen m.vocabSize (tqFeed O st m rt (callsFrom k tokens) t)
  | [], _, _, _, _ => rfl
  | token :: tokens, k, s, t, h => by
      have hdet := tqForward_det O st rt hm token k s t h
      rw [callsFrom, tqFeed, tqFeed]
      rcases hs : (tqForward O st m rt token k).exec s with ⟨e | u, s'⟩
      · rw [hs] at hdet
        obtain ⟨t', ht⟩ := hdet.2 trivial
        rw [ht]
        rfl
      · rw [hs] at hdet
        obtain ⟨u', t', ht, hagree⟩ := hdet
        have hlogits : (List.range m.vocabSize).map (TqMemory.f s'.mem .logits) =
            (List.range m.vocabSize).map (TqMemory.f t'.mem .logits) := by
          refine List.map_congr_left fun i hi => ?_
          exact hagree (.f .logits i) (.inr (mem_span_zero (List.mem_range.mp hi)))
        have hrest := logitsSeen_agree hm tokens (k + 1) (hagree.mono Set.subset_union_left)
        rw [ht]
        show Except.ok _ :: _ = Except.ok _ :: _
        rw [hlogits, hrest]

/-- What is left behind by a run that returned throughout. -/
theorem machineAfter_agree (hm : m.Sized) :
    ∀ (tokens : List Int) (k : Nat) {s t : TqMachine (TqMem F)},
    Agree (cached m rt k) s.mem t.mem →
    (∀ r ∈ tqFeed O st m rt (callsFrom k tokens) s, r.1 = .ok ()) →
      (∀ r ∈ tqFeed O st m rt (callsFrom k tokens) t, r.1 = .ok ()) ∧
      Agree (cached m rt (k + tokens.length)) (machineAfter O st m rt (callsFrom k tokens) s).mem
        (machineAfter O st m rt (callsFrom k tokens) t).mem
  | [], _, _, _, h, _ => ⟨fun _ hr => absurd hr List.not_mem_nil, h⟩
  | token :: tokens, k, s, t, h, hok => by
      rw [callsFrom, tqFeed] at hok
      obtain ⟨hhead, hrest⟩ := List.forall_mem_cons.mp hok
      obtain ⟨u, t', ht, hagree⟩ := (tqForward_det O st rt hm token k).of_ok h hhead
      obtain ⟨hok', hend⟩ :=
        machineAfter_agree hm tokens (k + 1) (hagree.mono Set.subset_union_left) hrest
      rw [callsFrom, tqFeed, machineAfter, machineAfter, ht, List.length_cons,
        Nat.add_comm tokens.length, ← Nat.add_assoc]
      exact ⟨List.forall_mem_cons.mpr ⟨rfl, hok'⟩, hend⟩

/-- A run from a position on leaves the rows below alone. -/
theorem machineAfter_keeps (hm : m.Sized) {k : Nat} :
    ∀ (tokens : List Int) {j : Nat} (s : TqMachine (TqMem F)), k ≤ j →
    Agree (cached m rt k) s.mem (machineAfter O st m rt (callsFrom j tokens) s).mem
  | [], _, _, _ => fun _ _ => rfl
  | token :: tokens, j, s, hj => by
      have hstep := tqForward_keeps O st rt hm token hj s
      have hrest := machineAfter_keeps hm tokens ((tqForward O st m rt token j).exec s).2
        (Nat.le_succ_of_le hj)
      exact fun l hl => (hstep l hl).trans (hrest l hl)

/-- **Rewinding.**  Two runtimes, whatever is in their buffers and in their
caches, show the same on the same tokens.  Taken back to an earlier position, a
runtime shows what the other one does on the tokens kept and the new ones. -/
theorem logitsSeen_rewound (hm : m.Sized) (s s' : TqMachine (TqMem F)) :
    (∀ tokens, logitsSeen m.vocabSize (tqFeed O st m rt (callsFrom 0 tokens) s) =
      logitsSeen m.vocabSize (tqFeed O st m rt (callsFrom 0 tokens) s')) ∧
    ∀ tokens k restart, k ≤ tokens.length →
      (∀ r ∈ tqFeed O st m rt (callsFrom 0 tokens) s, r.1 = .ok ()) →
      logitsSeen m.vocabSize (tqFeed O st m rt (callsFrom 0 (tokens.take k ++ restart)) s') =
        logitsSeen m.vocabSize (tqFeed O st m rt (callsFrom 0 (tokens.take k)) s) ++
        logitsSeen m.vocabSize (tqFeed O st m rt (callsFrom k restart)
          (machineAfter O st m rt (callsFrom 0 tokens) s)) := by
  have hfresh : Agree (cached m rt 0) s.mem s'.mem := by
    intro l hl
    obtain ⟨_, _, i, hi, _⟩ := (mem_cached rt).mp hl
    exact absurd hi (Nat.not_lt_zero i)
  refine ⟨fun tokens => logitsSeen_agree O st rt hm tokens 0 hfresh,
    fun tokens k restart hk hok => ?_⟩
  have hlen : 0 + (tokens.take k).length = k := by
    rw [Nat.zero_add, List.length_take, Nat.min_eq_left hk]
  have hsplit : callsFrom 0 tokens =
      callsFrom 0 (tokens.take k) ++ callsFrom k (tokens.drop k) := by
    conv => lhs; rw [← List.take_append_drop k tokens, callsFrom_append, hlen]
  rw [hsplit, tqFeed_append] at hok
  have hkept := fun r hr => hok r (List.mem_append_left _ hr)
  obtain ⟨hkept', hagree⟩ := machineAfter_agree O st rt hm (tokens.take k) 0 hfresh hkept
  rw [hlen] at hagree
  have hback := machineAfter_keeps O st rt hm (tokens.drop k)
    (machineAfter O st m rt (callsFrom 0 (tokens.take k)) s) (Nat.le_refl k)
  rw [callsFrom_append, hlen, tqFeed_append, logitsSeen_append _ hkept',
    logitsSeen_agree O st rt hm (tokens.take k) 0 hfresh, hsplit, machineAfter_append]
  congr 1
  exact logitsSeen_agree O st rt hm restart k fun l hl => (hagree l hl).symm.trans (hback l hl)

end Layers

end TinyLlm
