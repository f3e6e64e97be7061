/-
# `TinyLlm.Forward.Footprint` — what the parts of a decode step read and write

The operations of `TinyLlm.Forward.Ops` work on spans of buffers.  Each has a
footprint: what it reads of the memory that was there before, and what it
writes.  An operation in place reads an element before it writes it, so its
span is in both.

The cache is cut into rows, one for each layer and position (`cacheRow`).
`tq_kv_store` writes one row; a head reads the rows of its layer up to its
position, and no other.
-/
import TinyLlm.Kernels.Dequant
import TinyLlm.Lib.Touches
import TinyLlm.Model.Accepted
import TinyLlm.Forward.Ops

namespace TinyLlm

open Loop Footprints Bytes

/-! ## Spans -/

/-- `b[a .. a + n)`. -/
def span (b : TqBuf) (a n : Nat) : Set TqLoc := cells (fun i => .f b (a + i)) n

/-- The same of the cache as bytes. -/
def byteSpan (b : TqBytes) (a n : Nat) : Set TqLoc := cells (fun i => .i8 b (a + i)) n

/-- The first `n` blocks. -/
def blocks (b : TqQuant) (n : Nat) : Set TqLoc := cells (fun i => .blk b i) n

theorem mem_span {b : TqBuf} {a n i : Nat} (h₁ : a ≤ i) (h₂ : i < a + n) :
    TqLoc.f b i ∈ span b a n :=
  ⟨i - a, by omega, congrArg (TqLoc.f b) (Nat.add_sub_cancel' h₁).symm⟩

theorem mem_span_add {b : TqBuf} {a n i : Nat} (h : i < n) : TqLoc.f b (a + i) ∈ span b a n :=
  ⟨i, h, rfl⟩

theorem mem_span_zero {b : TqBuf} {n i : Nat} (h : i < n) : TqLoc.f b i ∈ span b 0 n :=
  mem_span (Nat.zero_le i) (by omega)

theorem span_subset {b : TqBuf} {a n a' n' : Nat} (h₁ : a' ≤ a) (h₂ : a + n ≤ a' + n') :
    span b a n ⊆ span b a' n' := by
  rintro l ⟨i, hi, rfl⟩
  exact mem_span (by omega) (by omega)

theorem mem_byteSpan {b : TqBytes} {a n i : Nat} (h₁ : a ≤ i) (h₂ : i < a + n) :
    TqLoc.i8 b i ∈ byteSpan b a n :=
  ⟨i - a, by omega, congrArg (TqLoc.i8 b) (Nat.add_sub_cancel' h₁).symm⟩

theorem byteSpan_subset {b : TqBytes} {a n a' n' : Nat} (h₁ : a' ≤ a) (h₂ : a + n ≤ a' + n') :
    byteSpan b a n ⊆ byteSpan b a' n' := by
  rintro l ⟨i, hi, rfl⟩
  exact mem_byteSpan (by omega) (by omega)

section Ops
variable {F : Type} (O : FloatOps F)

/-- A float that is read. -/
theorem dependsOn_f {R : Set TqLoc} {b : TqBuf} {i : Nat} (h : TqLoc.f b i ∈ R) :
    DependsOn (fun mem : TqMem F => mem.f b i) R :=
  dependsOn_read h

theorem dependsOn_i8 {R : Set TqLoc} {b : TqBytes} {i : Nat} (h : TqLoc.i8 b i ∈ R) :
    DependsOn (fun mem : TqMem F => mem.i8 b i) R :=
  dependsOn_read h

/-- A value that is there already is written. -/
theorem put_footprint {R : Set TqLoc} (l : TqLoc) (v : TqVal F l) :
    Footprint R {l} (fun mem : TqMem F => mem.put l v) :=
  Footprint.write fun _ _ _ => rfl

/-! ## Vectors -/

/-- A loop that fills a span. -/
theorem span_fill {R : Set TqLoc} {b : TqBuf} {a n : Nat} {g : Nat → TqMem F → F}
    (h : ∀ i < n, DependsOn (g i) R) :
    Footprint R (span b a n) (fun mem : TqMem F =>
      forUp n (fun i (mem : TqMem F) => mem.put (.f b (a + i)) (g i mem)) mem) :=
  Footprint.fill (c := fun i => TqLoc.f b (a + i)) h

theorem span_fill_zero {R : Set TqLoc} {b : TqBuf} {n : Nat} {g : Nat → TqMem F → F}
    (h : ∀ i < n, DependsOn (g i) R) :
    Footprint R (span b 0 n) (fun mem : TqMem F =>
      forUp n (fun i (mem : TqMem F) => mem.put (.f b i) (g i mem)) mem) := by
  have hspan : span b 0 n = cells (TqLoc.f b) n := by
    unfold span
    simp only [Nat.zero_add]
  rw [hspan]
  exact Footprint.fill (c := TqLoc.f b) h

theorem rmsScale_dependsOn (src : TqBuf) (n : Nat) (eps : F) :
    DependsOn (fun mem : TqMem F => rmsScale O n eps (mem.f src)) (span src 0 n) := by
  unfold rmsScale
  refine dependsOn_map (fun ss => O.div (O.ofInt 1) (O.sqrt (O.add (O.div ss (O.ofInt n)) eps)))
    (dependsOn_forUp fun i hi ss => ?_)
  exact dependsOn_map (fun v => O.add ss (O.mul v v)) (dependsOn_f (mem_span_zero hi))

theorem rmsScale_congr {n : Nat} (eps : F) {x y : Nat → F} (h : ∀ i < n, x i = y i) :
    rmsScale O n eps x = rmsScale O n eps y := by
  have hsum : forUp n (fun i ss => O.add ss (O.mul (x i) (x i))) (O.ofInt 0) =
      forUp n (fun i ss => O.add ss (O.mul (y i) (y i))) (O.ofInt 0) := by
    refine forUp_congr _ fun i hi ss => ?_
    rw [h i hi]
  unfold rmsScale
  rw [hsum]

/-- `tq_rmsnorm`, also in place. -/
theorem tqRmsnorm_footprint (out src : TqBuf) (w : Nat → F) (n : Nat) (eps : F) :
    Footprint (span src 0 n) (span out 0 n) (tqRmsnorm O out src w n eps) := by
  refine Footprint.bind (rmsScale_dependsOn O src n eps) (f := fun ss (mem : TqMem F) =>
    forUp n (fun i (mem : TqMem F) => mem.put (.f out i) (O.mul (w i) (O.mul ss (mem.f src i))))
      mem) fun ss => ?_
  refine span_fill_zero fun i hi => ?_
  exact dependsOn_map (fun v => O.mul (w i) (O.mul ss v)) (dependsOn_f (mem_span_zero hi))

/-- A block is quantized from its 32 values. -/
theorem quantizeBlock_congr {src src' : Nat → F} (h : ∀ j < tqGroupSize, src j = src' j) :
    quantizeBlock O src = quantizeBlock O src' := by
  have hamax : blockAmax O src = blockAmax O src' := by
    unfold blockAmax
    refine forUp_congr _ fun j hj amax => ?_
    rw [h j hj]
  unfold quantizeBlock
  rw [hamax]
  dsimp only
  congr 1
  funext j
  rw [h j j.isLt]

theorem tqQuantizeMem_footprint (src : TqBuf) (out : TqQuant) (n : Nat) :
    Footprint (span src 0 n) (blocks out (n / tqGroupSize)) (tqQuantizeMem O src out n) := by
  refine Footprint.fill (c := TqLoc.blk out) (g := fun b (mem : TqMem F) =>
    quantizeBlock O fun j => mem.f src (b * tqGroupSize + j)) fun b hb m₁ m₂ hA => ?_
  refine quantizeBlock_congr O fun j hj => hA (.f src (b * tqGroupSize + j)) (mem_span_zero ?_)
  have hend := Nat.mul_le_mul_right tqGroupSize (Nat.succ_le_of_lt hb)
  rw [Nat.succ_mul] at hend
  have hn := Nat.div_mul_le_self n tqGroupSize
  omega

theorem tqAddInto_footprint (dst src : TqBuf) (n : Nat) :
    Footprint (span dst 0 n ∪ span src 0 n) (span dst 0 n) (tqAddInto O dst src n) := by
  refine span_fill_zero fun i hi => ?_
  exact dependsOn_map₂ O.add (dependsOn_f (.inl (mem_span_zero hi)))
    (dependsOn_f (.inr (mem_span_zero hi)))

theorem tqSwiglu_footprint (n : Nat) :
    Footprint (span .hb 0 n ∪ span .hb3 0 n) (span .hb 0 n) (tqSwiglu O n) := by
  refine span_fill_zero (g := fun i (mem : TqMem F) => O.mul (O.div (mem.f .hb i)
    (O.add (O.ofInt 1) (O.tqExpf (O.neg (mem.f .hb i))))) (mem.f .hb3 i)) fun i hi => ?_
  exact dependsOn_map₂ (fun v w => O.mul (O.div v (O.add (O.ofInt 1) (O.tqExpf (O.neg v)))) w)
    (dependsOn_f (.inl (mem_span_zero hi))) (dependsOn_f (.inr (mem_span_zero hi)))

/-! ## The softmax -/

theorem softmaxMax_dependsOn (b : TqBuf) (off : Nat) {n : Nat} (hn : 0 < n) :
    DependsOn (fun mem : TqMem F => softmaxMax O n fun i => mem.f b (off + i)) (span b off n) := by
  unfold softmaxMax
  intro (m₁ : TqMem F) (m₂ : TqMem F) hA
  have hread : ∀ i < n, m₁.f b (off + i) = m₂.f b (off + i) := fun i hi => hA _ (mem_span_add hi)
  show forUp (n - 1) _ (m₁.f b (off + 0)) = forUp (n - 1) _ (m₂.f b (off + 0))
  rw [hread 0 hn]
  refine forUp_congr _ fun i hi max => ?_
  exact congrArg (fun v => if O.lt max v then v else max) (hread (i + 1) (by omega))

/-- One round of the loop that takes exponentials and adds them up. -/
theorem softmax_round {b : TqBuf} {off n i : Nat} (hi : i < n) (max : F) {s t : TqMem F × F}
    (h : Agree (span b off n) s.1 t.1 ∧ s.2 = t.2) :
    let round := fun (s : TqMem F × F) =>
      (s.1.put (.f b (off + i)) (O.tqExpf (O.sub (s.1.f b (off + i)) max)),
        O.add s.2 (O.tqExpf (O.sub (s.1.f b (off + i)) max)))
    Agree (span b off n) (round s).1 (round t).1 ∧ (round s).2 = (round t).2 := by
  intro round
  have hread : s.1.f b (off + i) = t.1.f b (off + i) := h.1 _ (mem_span_add hi)
  constructor
  · have hput : Footprint (span b off n) {TqLoc.f b (off + i)} fun mem : TqMem F =>
        mem.put (.f b (off + i)) (O.tqExpf (O.sub (mem.f b (off + i)) max)) :=
      Footprint.write
        (dependsOn_map (fun v => O.tqExpf (O.sub v max)) (dependsOn_f (mem_span_add hi)))
    exact (hput.agree (Set.Subset.refl _) h.1).mono Set.subset_union_left
  · show O.add s.2 _ = O.add t.2 _
    rw [hread, h.2]

theorem tqSoftmax_footprint (b : TqBuf) (off : Nat) {n : Nat} (hn : 0 < n) :
    Footprint (span b off n) (span b off n) (tqSoftmax O b off n) := by
  refine Footprint.bind (softmaxMax_dependsOn O b off hn) (f := fun max (mem : TqMem F) =>
    let exps := forUp n (fun i (s : TqMem F × F) =>
      let v := O.tqExpf (O.sub (s.1.f b (off + i)) max)
      (s.1.put (.f b (off + i)) v, O.add s.2 v)) (mem, O.ofInt 0)
    let sum := O.div (O.ofInt 1) exps.2
    forUp n (fun i (mem : TqMem F) => mem.put (.f b (off + i)) (O.mul (mem.f b (off + i)) sum))
    exps.1) fun max => ?_
  have hscale : ∀ sum : F, Footprint (span b off n) (span b off n) fun mem : TqMem F =>
      forUp n (fun i (mem : TqMem F) => mem.put (.f b (off + i)) (O.mul (mem.f b (off + i)) sum))
        mem := fun sum =>
    span_fill fun i hi => dependsOn_map (fun v => O.mul v sum) (dependsOn_f (mem_span_add hi))
  constructor
  · intro mem l hl
    refine ((hscale _).frame _ l hl).trans ?_
    refine forUp_inv (I := fun _ (s : TqMem F × F) => s.1 l = mem l) rfl fun i hi s hs => ?_
    refine Eq.trans (Function.update_of_ne (fun h => hl ?_) _ _) hs
    rw [h]
    exact mem_span_add hi
  · intro l hl m₁ m₂ hA
    have hexps :=
      forUp_rel (I := fun _ (s t : TqMem F × F) => Agree (span b off n) s.1 t.1 ∧ s.2 = t.2)
      (s := (m₁, O.ofInt 0)) (t := (m₂, O.ofInt 0)) (n := n) ⟨hA, rfl⟩
        fun i hi s t h => softmax_round O hi max h
    dsimp only at hexps ⊢
    rw [hexps.2]
    exact (hscale _).det l hl hexps.1

/-! ## Weights -/

theorem setBuf_same (mem : TqMem F) (b : TqBuf) (a : Nat → F) (i : Nat) :
    (mem.setBuf b a).f b i = a i :=
  if_pos rfl

theorem setBuf_update (mem : TqMem F) (b : TqBuf) (a : Nat → F) (i : Nat) (v : F) :
    (mem.setBuf b a).put (.f b i) v = mem.setBuf b (Function.update a i v) := by
  funext l
  by_cases hl : l = .f b i
  · subst hl
    exact (Function.update_self _ _ _).trans
      (((if_pos rfl).trans (Function.update_self i v a)).symm)
  · refine (Function.update_of_ne hl _ _).trans ?_
    cases l with
    | f b' k =>
        show (if b' = b then a k else mem.f b' k) = if b' =
          b then Function.update a i v k else mem.f b' k
        by_cases hb : b' = b
        · subst hb
          have hk : k ≠ i := fun hk => hl (congrArg _ hk)
          rw [if_pos rfl, if_pos rfl, Function.update_of_ne hk]
        · rw [if_neg hb, if_neg hb]
    | i8 b' k => rfl
    | blk b' k => rfl

theorem setBuf_self (mem : TqMem F) (b : TqBuf) : mem.setBuf b (mem.f b) = mem := by
  funext l
  cases l with
  | f b' i =>
      show (if b' = b then mem.f b i else mem.f b' i) = mem.f b' i
      split
      · next hb => rw [hb]
      · rfl
  | i8 b' i => rfl
  | blk b' i => rfl

/-- What `tq_dequantize` makes of a buffer. -/
theorem tqDequantizeMem_eq (out : TqBuf) (bs : List UInt8) (dtype n : Nat) (mem : TqMem F) :
    tqDequantizeMem O out bs dtype n mem =
      mem.setBuf out (tqDequantize O bs dtype (mem.f out) n) := by
  refine tqDequantizeWith_rel O (I := fun (s : TqMem F) (a : Nat → F) => s = mem.setBuf out a)
    (fun i _ v s a hs => ?_) bs dtype (setBuf_self mem out).symm
  subst hs
  exact setBuf_update mem out a i v

/-- `tq_dequantize` into a buffer; a whole number of blocks is all overwritten. -/
theorem dequantize_footprint (out : TqBuf) (bs : List UInt8) {dtype n : Nat}
    (hdtype : dtype = tqDtQ40 ∨ dtype = tqDtQ80) (hn : tqGroupSize ∣ n) :
    Footprint ∅ (span out 0 n) fun mem : TqMem F => tqDequantizeMem O out bs dtype n mem := by
  have hset : (fun mem : TqMem F => tqDequantizeMem O out bs dtype n mem) =
      fun mem => mem.setBuf out (tqDequantize O bs dtype (mem.f out) n) :=
    funext (tqDequantizeMem_eq O out bs dtype n)
  rw [hset]
  have hlen : dequantLen dtype n = n := by
    rw [dequantLen, if_pos hdtype.symm, Nat.div_mul_cancel hn]
  have hall : ∀ (mem : TqMem F) (i : Nat),
      (mem.setBuf out (tqDequantize O bs dtype (mem.f out) n)).f out i =
      if i < n then dequantAt O bs dtype i else mem.f out i := fun mem i => by
    rw [setBuf_same, tqDequantize_apply, hlen]
  constructor
  · intro mem l hl
    cases l with
    | f b i =>
        by_cases hb : b = out
        · subst hb
          exact (hall mem i).trans (if_neg fun hi => hl (mem_span_zero hi))
        · exact if_neg hb
    | i8 b i => rfl
    | blk b i => rfl
  · rintro l ⟨i, hi, rfl⟩ m₁ m₂ -
    have hi : 0 + i < n := by rwa [Nat.zero_add]
    exact (hall m₁ (0 + i)).trans ((if_pos hi).trans ((hall m₂ (0 + i)).trans (if_pos hi)).symm)

/-- A row is multiplied with the blocks it has. -/
theorem rowDot_congr (dtype : Nat) (row : List UInt8) {x x' : Nat → TqBlockQ80} {nb : Nat}
    (h : ∀ b < nb, x b = x' b) : rowDot O dtype row x nb = rowDot O dtype row x' nb := by
  have hfold : ∀ (acc : Nat → TqBlockQ80 → Acc32) (dw : Nat → UInt16),
      dotFold O (fun b => acc b (x b)) dw (fun b => (x b).d) nb =
        dotFold O (fun b => acc b (x' b)) dw (fun b => (x' b).d) nb := fun acc dw => by
    unfold dotFold
    refine forUp_congr _ fun b hb sum => ?_
    dsimp only
    rw [h b hb]
  unfold rowDot
  split
  · exact hfold (fun b => accQ40 (TqBlockQ40.ofBytes row (b * 18))) _
  · exact hfold (fun b => accQ80 (TqBlockQ80.ofBytes row (b * 34))) _

theorem tqDotRows_footprint (out : TqBuf) (dtype rowBytes nb : Nat) (acts : TqQuant)
    (ws : List UInt8) (i rows : Nat) :
    Footprint (blocks acts nb) (span out i rows)
      (tqDotRows O out dtype rowBytes nb acts ws i rows) := by
  refine span_fill (g := fun r (mem : TqMem F) => rowDot O dtype (slice ws (r * rowBytes) rowBytes)
    (mem.blk acts) nb) fun r _ m₁ m₂ hA => ?_
  exact rowDot_congr O dtype _ fun b hb => hA (.blk acts b) ⟨b, hb, rfl⟩

/-! ## RoPE -/

section Rope
variable (m : TqModel)

/-- What `tq_rope_prepare` fills. -/
def ropeTables : Set TqLoc := span .ropeCos 0 (m.headSize / 2) ∪ span .ropeSin 0 (m.headSize / 2)

theorem tqRopePrepare_footprint (pos : Nat) :
    Footprint ∅ (ropeTables m) (tqRopePrepare O m pos) := by
  have hpair : ∀ (i : Nat) (c s : F), Footprint ∅ ({TqLoc.f .ropeCos i} ∪ {TqLoc.f .ropeSin i})
      fun mem : TqMem F => (mem.put (.f .ropeCos i) c).put (.f .ropeSin i) s := fun i c s =>
    (put_footprint (.f .ropeSin i) s).comp (put_footprint (.f .ropeCos i) c) (Set.empty_subset _)
  refine (Footprint.forUp (S := fun i => {TqLoc.f .ropeCos i} ∪ {TqLoc.f .ropeSin i}) fun i _ =>
    (hpair i _ _).mono (Set.empty_subset _)).widen (fun l hl => ?_) fun l hl => .inr ?_
  · obtain ⟨i, hi, hl⟩ := Set.mem_iUnion₂.mp hl
    rcases hl with rfl | rfl
    · exact .inl (mem_span_zero hi)
    · exact .inr (mem_span_zero hi)
  · rcases hl with ⟨i, hi, rfl⟩ | ⟨i, hi, rfl⟩
    · exact Set.mem_iUnion₂.mpr ⟨i, hi, .inl (congrArg _ (Nat.zero_add i))⟩
    · exact Set.mem_iUnion₂.mpr ⟨i, hi, .inr (congrArg _ (Nat.zero_add i))⟩

theorem tqRotatePair_footprint {R : Set TqLoc} (v : TqBuf) (base i : Nat)
    (hc : TqLoc.f .ropeCos i ∈ R) (hs : TqLoc.f .ropeSin i ∈ R) (h₀ : TqLoc.f v (base + 2 * i) ∈ R)
    (h₁ : TqLoc.f v (base + 2 * i + 1) ∈ R) :
    Footprint R ({TqLoc.f v (base + 2 * i)} ∪ {TqLoc.f v (base + 2 * i + 1)})
      (tqRotatePair O v base i) := by
  -- all four values are read before the first is written
  refine Footprint.bind (g := fun mem : TqMem F => ((mem.f .ropeCos i, mem.f .ropeSin i),
    mem.f v (base + 2 * i), mem.f v (base + 2 * i + 1))) (f := fun r (mem : TqMem F) =>
      (mem.put (.f v (base + 2 * i)) (O.sub (O.mul r.2.1 r.1.1) (O.mul r.2.2 r.1.2))).put
        (.f v (base + 2 * i + 1)) (O.add (O.mul r.2.1 r.1.2) (O.mul r.2.2 r.1.1))) ?_ fun r => ?_
  · exact dependsOn_map₂ Prod.mk (dependsOn_map₂ Prod.mk (dependsOn_f hc) (dependsOn_f hs))
      (dependsOn_map₂ Prod.mk (dependsOn_f h₀) (dependsOn_f h₁))
  · exact (put_footprint (.f v (base + 2 * i + 1)) _).comp (put_footprint (.f v (base + 2 * i)) _)
      Set.subset_union_left

/-- A whole number of heads, rotated in place. -/
theorem tqRopeApply_footprint (v : TqBuf) {n : Nat} (hpos : 0 < m.headSize) (hn : m.headSize ∣ n) :
    Footprint (span v 0 n ∪ ropeTables m) (span v 0 n) (tqRopeApply O m v n) := by
  obtain ⟨k, rfl⟩ := hn
  have hheads : (m.headSize * k + m.headSize - 1) / m.headSize = k := by
    rw [Nat.add_sub_assoc hpos, Nat.mul_add_div hpos,
      Nat.div_eq_of_lt (Nat.sub_lt hpos Nat.one_pos), Nat.add_zero]
  unfold tqRopeApply
  rw [hheads]
  refine Footprint.forUp_same Set.subset_union_left fun h hh => ?_
  refine Footprint.forUp_same Set.subset_union_left fun i hi => ?_
  have hend := Nat.mul_le_mul_left m.headSize (Nat.succ_le_of_lt hh)
  rw [Nat.mul_succ, Nat.mul_comm m.headSize h] at hend
  have h₀ : TqLoc.f v (h * m.headSize + 2 * i) ∈ span v 0 (m.headSize * k) :=
    mem_span_zero (by omega)
  have h₁ : TqLoc.f v (h * m.headSize + 2 * i + 1) ∈ span v 0 (m.headSize * k) :=
    mem_span_zero (by omega)
  refine (tqRotatePair_footprint O v (h * m.headSize) i (.inr (.inl (mem_span_zero hi)))
    (.inr (.inr (mem_span_zero hi))) (.inl h₀) (.inl h₁)).widen (fun l hl => ?_)
      fun l hl => .inl (.inl hl)
  rcases hl with rfl | rfl
  · exact h₀
  · exact h₁

end Rope

/-! ## The cache -/

section Cache
variable (m : TqModel) (rt : TqRuntime)

/-- Where the key and the value of a layer and a position lie, with their scales. -/
def cacheRow (layer pos : Nat) : Set TqLoc :=
  let idx := kvRow rt layer pos * m.kvDim
  match rt.kvDtype with
  | .f32 => span .kCache idx m.kvDim ∪ span .vCache idx m.kvDim
  | .q8 =>
      let sidx := kvRow rt layer pos * m.nKvHeads
      (byteSpan .kCache idx m.kvDim ∪ span .kScale sidx m.nKvHeads) ∪
        (byteSpan .vCache idx m.kvDim ∪ span .vScale sidx m.nKvHeads)

theorem cacheRow_f32 (hkv : rt.kvDtype = .f32) (layer pos : Nat) : cacheRow m rt layer pos =
    span .kCache (kvRow rt layer pos * m.kvDim) m.kvDim ∪
      span .vCache (kvRow rt layer pos * m.kvDim) m.kvDim := by
  unfold cacheRow
  rw [hkv]

theorem cacheRow_q8 (hkv : rt.kvDtype = .q8) (layer pos : Nat) : cacheRow m rt layer pos =
    (byteSpan .kCache (kvRow rt layer pos * m.kvDim) m.kvDim ∪
      span .kScale (kvRow rt layer pos * m.nKvHeads) m.nKvHeads) ∪
    (byteSpan .vCache (kvRow rt layer pos * m.kvDim) m.kvDim ∪
      span .vScale (kvRow rt layer pos * m.nKvHeads) m.nKvHeads) := by
  unfold cacheRow
  rw [hkv]

theorem absMax_congr {n : Nat} {x y : Nat → F} (h : ∀ i < n, x i = y i) :
    absMax O n x = absMax O n y := by
  unfold absMax
  refine forUp_congr _ fun i hi ka => ?_
  rw [h i hi]

theorem absMax_dependsOn (src : TqBuf) (off n : Nat) :
    DependsOn (fun mem : TqMem F => absMax O n fun i => mem.f src (off + i)) (span src off n) := by
  unfold absMax
  refine dependsOn_forUp fun i hi ka => ?_
  exact dependsOn_map (fun v => let a := if O.lt v (O.ofInt 0) then O.neg v else v
    if O.lt ka a then a else ka) (dependsOn_f (mem_span_add hi))

theorem tqKvQuantHead_footprint (cache : TqBytes) (scale src : TqBuf)
    (headSize idx sidx off : Nat) :
    Footprint (span src off headSize) ({TqLoc.f scale sidx} ∪ byteSpan cache (idx + off) headSize)
      (tqKvQuantHead O cache scale src headSize idx sidx off) := by
  refine Footprint.bind (g := fun mem : TqMem F =>
    O.div (absMax O headSize fun i => mem.f src (off + i)) (O.ofInt 127))
      (f := fun ks (mem : TqMem F) =>
      let mem := mem.put (.f scale sidx) ks
      let ki := if O.beq ks (O.ofInt 0) then O.ofInt 0 else O.div (O.ofInt 1) ks
      forUp headSize (fun i (mem : TqMem F) =>
        mem.put (.i8 cache (idx + (off + i)))
          (Int8.ofInt (roundClamp O (O.mul (mem.f src (off + i)) ki)))) mem)
    (dependsOn_map (fun a => O.div a (O.ofInt 127)) (absMax_dependsOn O src off headSize))
      fun ks => ?_
  have hloc : byteSpan cache (idx + off) headSize =
      cells (fun i => TqLoc.i8 cache (idx + (off + i))) headSize := by
    unfold byteSpan
    simp only [Nat.add_assoc]
  rw [hloc]
  refine Footprint.comp (Footprint.fill (c := fun i => TqLoc.i8 cache (idx + (off + i)))
    fun i hi => ?_) (put_footprint (.f scale sidx) ks) Set.subset_union_left
  exact dependsOn_map (fun v => Int8.ofInt (roundClamp O (O.mul v _)))
    (dependsOn_f (mem_span_add hi))

variable {m rt}

/-- The span of head `h` among `n` heads. -/
theorem head_le {h n w : Nat} (hh : h < n) : h * w + w ≤ n * w := by
  rw [← Nat.succ_mul]
  exact Nat.mul_le_mul_right w hh

/-- An element of a vector is one of a head. -/
theorem head_of_lt {n w i : Nat} (hi : i < w * n) : ∃ h < n, ∃ j < w, i = h * w + j := by
  have hw : 0 < w := Nat.pos_of_ne_zero fun h => by
    rw [h, Nat.zero_mul] at hi
    exact absurd hi (Nat.not_lt_zero i)
  refine ⟨i / w, Nat.div_lt_of_lt_mul hi, i % w, Nat.mod_lt i hw, ?_⟩
  rw [Nat.mul_comm]
  exact (Nat.div_add_mod i w).symm

/-- **A store** fills the row. -/
theorem tqKvStore_footprint (hkv : m.kvDim = m.headSize * m.nKvHeads) (layer pos : Nat) :
    Footprint (span .kb 0 m.kvDim ∪ span .vb 0 m.kvDim) (cacheRow m rt layer pos)
      (tqKvStore O m rt layer pos) := by
  unfold tqKvStore
  dsimp only
  cases hdtype : rt.kvDtype with
  | f32 =>
      rw [cacheRow_f32 m rt hdtype]
      refine (span_fill (g := fun i (mem : TqMem F) => mem.f .vb i) fun i hi => ?_).comp
        (span_fill (g := fun i (mem : TqMem F) => mem.f .kb i) fun i hi => ?_) Set.subset_union_left
      · exact dependsOn_f (.inr (mem_span_zero hi))
      · exact dependsOn_f (.inl (mem_span_zero hi))
  | q8 =>
      rw [cacheRow_q8 m rt hdtype]
      generalize kvRow rt layer pos * m.kvDim = idx
      generalize kvRow rt layer pos * m.nKvHeads = sidx
      let S := fun h =>
        ({TqLoc.f .kScale (sidx + h)} ∪ byteSpan .kCache (idx + h * m.headSize) m.headSize) ∪
        ({TqLoc.f .vScale (sidx + h)} ∪ byteSpan .vCache (idx + h * m.headSize) m.headSize)
      refine (Footprint.forUp (S := S) fun h hh => ?_).widen (fun l hl => ?_) fun l hl => .inr ?_
      · have hhead : ∀ b, span b (h * m.headSize) m.headSize ⊆ span b 0 m.kvDim := fun b => by
          rw [hkv, Nat.mul_comm m.headSize]
          exact span_subset (Nat.zero_le _) ((head_le hh).trans (Nat.le_add_left _ _))
        refine ((tqKvQuantHead_footprint O .vCache .vScale .vb m.headSize idx (sidx + h)
          (h * m.headSize)).mono fun l hl => .inr (hhead _ hl)).comp
          ((tqKvQuantHead_footprint O .kCache .kScale .kb m.headSize idx (sidx + h)
            (h * m.headSize)).mono
          fun l hl => .inl (.inl (hhead _ hl))) fun l hl => .inl (.inl hl)
      · obtain ⟨h, hh, hl⟩ := Set.mem_iUnion₂.mp hl
        have hend := @head_le h m.nKvHeads m.headSize hh
        have hbytes : ∀ b, byteSpan b (idx + h * m.headSize) m.headSize ⊆
            byteSpan b idx m.kvDim := fun b =>
          byteSpan_subset (Nat.le_add_right _ _) (by rw [hkv, Nat.mul_comm m.headSize]; omega)
        rcases hl with (rfl | hl) | rfl | hl
        · exact .inl (.inr (mem_span_add hh))
        · exact .inl (.inl (hbytes _ hl))
        · exact .inr (.inr (mem_span_add hh))
        · exact .inr (.inl (hbytes _ hl))
      · have hbyte : ∀ i < m.kvDim, ∃ h < m.nKvHeads, ∀ b, TqLoc.i8 b (idx + i) ∈
            byteSpan b (idx + h * m.headSize) m.headSize := fun i hi => by
          rw [hkv] at hi
          obtain ⟨h, hh, j, hj, rfl⟩ := head_of_lt hi
          exact ⟨h, hh, fun b => ⟨j, hj, congrArg _ (Nat.add_assoc idx _ j).symm⟩⟩
        rcases hl with (⟨i, hi, rfl⟩ | ⟨i, hi, rfl⟩) | ⟨i, hi, rfl⟩ | ⟨i, hi, rfl⟩
        · obtain ⟨h, hh, hin⟩ := hbyte i hi
          exact Set.mem_iUnion₂.mpr ⟨h, hh, .inl (.inr (hin _))⟩
        · exact Set.mem_iUnion₂.mpr ⟨i, hi, .inl (.inl rfl)⟩
        · obtain ⟨h, hh, hin⟩ := hbyte i hi
          exact Set.mem_iUnion₂.mpr ⟨h, hh, .inr (.inr (hin _))⟩
        · exact Set.mem_iUnion₂.mpr ⟨i, hi, .inr (.inl rfl)⟩

/-- The values of a head lie in the row. -/
theorem head_index {layer t kvh i : Nat} (hkv : m.kvDim = m.headSize * m.nKvHeads)
    (hkvh : kvh < m.nKvHeads) (hi : i < m.headSize) :
    kvRow rt layer t * m.kvDim ≤ kvRow rt layer t * m.kvDim + kvh * m.headSize + i ∧
      kvRow rt layer t * m.kvDim + kvh * m.headSize + i < kvRow rt layer t * m.kvDim + m.kvDim := by
  have hend := @head_le kvh m.nKvHeads m.headSize hkvh
  rw [Nat.mul_comm m.nKvHeads, ← hkv] at hend
  omega

theorem tqKvDotK_dependsOn (hkv : m.kvDim = m.headSize * m.nKvHeads) (layer t qo : Nat) {kvh : Nat}
    (hkvh : kvh < m.nKvHeads) :
    DependsOn (tqKvDotK O m rt layer t kvh qo) (span .q qo m.headSize ∪ cacheRow m rt layer t) := by
  unfold tqKvDotK
  dsimp only
  cases hdtype : rt.kvDtype with
  | f32 =>
      rw [cacheRow_f32 m rt hdtype]
      refine dependsOn_forUp fun i hi s => ?_
      obtain ⟨h₁, h₂⟩ := @head_index m rt layer t kvh i hkv hkvh hi
      exact dependsOn_map₂ (fun q k => O.add s (O.mul q k)) (dependsOn_f (.inl (mem_span_add hi)))
        (dependsOn_f (.inr (.inl (mem_span h₁ h₂))))
  | q8 =>
      rw [cacheRow_q8 m rt hdtype]
      refine dependsOn_map₂ O.mul (dependsOn_forUp fun i hi s => ?_) ?_
      · obtain ⟨h₁, h₂⟩ := @head_index m rt layer t kvh i hkv hkvh hi
        exact dependsOn_map₂ (fun q (k : Int8) => O.add s (O.mul q (O.ofInt k.toInt)))
          (dependsOn_f (.inl (mem_span_add hi)))
          (dependsOn_i8 (.inr (.inl (.inl (mem_byteSpan h₁ h₂)))))
      · exact dependsOn_f (.inr (.inl (.inr (mem_span_add hkvh))))

theorem tqKvAccV_footprint (hkv : m.kvDim = m.headSize * m.nKvHeads)
    (layer t ao oo : Nat) {kvh : Nat} (hkvh : kvh < m.nKvHeads) :
    Footprint ({TqLoc.f .att ao} ∪ span .xb oo m.headSize ∪ cacheRow m rt layer t)
      (span .xb oo m.headSize)
      (tqKvAccV O m rt layer t kvh ao oo) := by
  unfold tqKvAccV
  dsimp only
  cases hdtype : rt.kvDtype with
  | f32 =>
      rw [cacheRow_f32 m rt hdtype]
      refine Footprint.bind (g := fun mem : TqMem F => mem.f .att ao) (f := fun a (mem : TqMem F) =>
        forUp m.headSize
          (fun i (mem : TqMem F) => mem.put (.f .xb (oo + i))
          (O.add (mem.f .xb (oo + i))
          (O.mul a (mem.f .vCache (kvRow rt layer t * m.kvDim + kvh * m.headSize + i))))) mem)
        (dependsOn_f (.inl (.inl rfl))) fun a => ?_
      refine span_fill fun i hi => ?_
      obtain ⟨h₁, h₂⟩ := @head_index m rt layer t kvh i hkv hkvh hi
      exact dependsOn_map₂ (fun x v => O.add x (O.mul a v))
        (dependsOn_f (.inl (.inr (mem_span_add hi)))) (dependsOn_f (.inr (.inr (mem_span h₁ h₂))))
  | q8 =>
      rw [cacheRow_q8 m rt hdtype]
      refine Footprint.bind (g := fun mem : TqMem F => O.mul (mem.f .att ao)
          (mem.f .vScale (kvRow rt layer t * m.nKvHeads + kvh))) (f := fun c (mem : TqMem F) =>
        forUp m.headSize (fun i (mem : TqMem F) => mem.put (.f .xb (oo + i))
          (O.add (mem.f .xb (oo + i)) (O.mul c (O.ofInt
            (mem.i8 .vCache (kvRow rt layer t * m.kvDim + kvh * m.headSize + i)).toInt)))) mem)
        (dependsOn_map₂ O.mul (dependsOn_f (.inl (.inl rfl)))
          (dependsOn_f (.inr (.inr (.inr (mem_span_add hkvh)))))) fun c => ?_
      refine span_fill fun i hi => ?_
      obtain ⟨h₁, h₂⟩ := @head_index m rt layer t kvh i hkv hkvh hi
      exact dependsOn_map₂ (fun x (v : Int8) => O.add x (O.mul c (O.ofInt v.toInt)))
        (dependsOn_f (.inl (.inr (mem_span_add hi))))
        (dependsOn_i8 (.inr (.inr (.inl (mem_byteSpan h₁ h₂)))))

variable (m rt) in
/-- The rows of a layer up to a position. -/
def cacheUpTo (layer n : Nat) : Set TqLoc := ⋃ t < n, cacheRow m rt layer t

theorem cacheRow_subset {layer t n : Nat} (h : t < n) :
    cacheRow m rt layer t ⊆ cacheUpTo m rt layer n :=
  Set.subset_iUnion₂_of_subset t h (Set.Subset.refl _)

theorem cacheUpTo_succ (layer n : Nat) :
    cacheUpTo m rt layer (n + 1) = cacheUpTo m rt layer n ∪ cacheRow m rt layer n := by
  unfold cacheUpTo
  simp only [Nat.lt_succ_iff_lt_or_eq, Set.iUnion_or, Set.iUnion_union_distrib,
    Set.iUnion_iUnion_eq_left]

/-- **A head** reads its part of the query and the rows up to its position. -/
theorem tqAttendHead_footprint (hm : m.Sized) (layer pos : Nat) {h : Nat} (hh : h < m.nHeads)
    (invSqrtHs : F) :
    Footprint (span .q 0 m.dim ∪ cacheUpTo m rt layer (pos + 1))
      (span .att (h * rt.maxSeq) (pos + 1) ∪ span .xb (h * m.headSize) m.headSize)
      (tqAttendHead O m rt layer pos h invSqrtHs) := by
  have hkvh : h / m.kvMul < m.nKvHeads := Nat.div_lt_of_lt_mul (hm.groups ▸ hh)
  have hq : span .q (h * m.headSize) m.headSize ⊆ span .q 0 m.dim :=
    span_subset (Nat.zero_le _) (by rw [Nat.zero_add, ← hm.heads]; exact head_le hh)
  have hscores := @span_fill F (span .q 0 m.dim ∪ cacheUpTo m rt layer (pos + 1)) .att
    (h * rt.maxSeq) (pos + 1)
    (fun t mem => O.mul (tqKvDotK O m rt layer t (h / m.kvMul) (h * m.headSize) mem) invSqrtHs)
    fun t ht => by
      refine dependsOn_map (fun s => O.mul s invSqrtHs) ?_
      exact (tqKvDotK_dependsOn O hm.kv layer t (h * m.headSize) hkvh).mono
        (Set.union_subset_union hq (cacheRow_subset ht))
  have hsoftmax := tqSoftmax_footprint O .att (h * rt.maxSeq) (Nat.succ_pos pos)
  have hzero := @span_fill F ∅ .xb (h * m.headSize) m.headSize (fun _ _ => O.ofInt 0)
    fun _ _ _ _ _ => rfl
  have hacc : Footprint (span .att (h * rt.maxSeq) (pos + 1) ∪
    span .xb (h * m.headSize) m.headSize ∪
        cacheUpTo m rt layer (pos + 1)) (span .xb (h * m.headSize) m.headSize) (fun mem : TqMem F =>
      forUp (pos + 1) (fun t mem => tqKvAccV O m rt layer t (h / m.kvMul) (h * rt.maxSeq + t)
        (h * m.headSize) mem) mem) := by
    refine Footprint.forUp_same (fun l hl => .inl (.inr hl)) fun t ht => ?_
    refine (tqKvAccV_footprint O hm.kv layer t (h * rt.maxSeq + t) (h * m.headSize) hkvh).mono ?_
    refine Set.union_subset_union (Set.union_subset_union ?_ (Set.Subset.refl _))
      (cacheRow_subset ht)
    exact Set.singleton_subset_iff.mpr (mem_span_add ht)
  have hall :=
    hacc.comp (hzero.comp (hsoftmax.comp hscores Set.subset_union_right) (Set.empty_subset _)) ?_
  · refine hall.widen ?_ ?_
    · intro l hl
      simp only [Set.mem_union] at hl ⊢
      tauto
    · intro l hl
      simp only [Set.mem_union] at hl ⊢
      tauto
  · intro l hl
    simp only [Set.mem_union] at hl ⊢
    tauto

end Cache

end Ops

end TinyLlm
