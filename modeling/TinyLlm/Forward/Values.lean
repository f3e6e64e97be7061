/-
# `TinyLlm.Forward.Values` — what the parts of a decode step leave in memory

Each operation of `TinyLlm.Forward.Ops`, with what it computes in the terms of
`TinyLlm.Forward.Transformer`: if its inputs hold given vectors, its output
holds the vector that the network has there.  A loop that fills a buffer in
place reads an element before it writes it and none that it wrote before
(`Footprint.fill_apply`); what else the memory holds is the business of the
footprints.

A row of the cache is held when reading it gives back what a cache of its type
keeps of a key and a value (`RowHeld`).
-/
import TinyLlm.Convert.Rope
import TinyLlm.Forward.History
import TinyLlm.Forward.Transformer

namespace TinyLlm

open Loop Bytes Footprints

section Values
variable {F : Type} {O : FloatOps F} {mem : TqMem F}

/-- The first `n` elements of a buffer. -/
def TqMem.Holds (mem : TqMem F) (b : TqBuf) (n : Nat) (v : Nat → F) : Prop :=
  ∀ i < n, mem.f b i = v i

/-- The first `n` blocks of a buffer. -/
def TqMem.HoldsBlocks (mem : TqMem F) (b : TqQuant) (n : Nat) (v : Nat → TqBlockQ80) : Prop :=
  ∀ i < n, mem.blk b i = v i

/-- A buffer holds what it held where it was not written. -/
theorem TqMem.Holds.kept {b : TqBuf} {n : Nat} {v : Nat → F} (h : mem.Holds b n v) {mem' : TqMem F}
    {W : Set TqLoc} (hkeep : ∀ l ∉ W, mem' l = mem l) (hW : ∀ i, TqLoc.f b i ∉ W) :
    mem'.Holds b n v :=
  fun i hi => (hkeep _ (hW i)).trans (h i hi)

theorem TqMem.Holds.frame {b : TqBuf} {n : Nat} {v : Nat → F} (h : mem.Holds b n v)
    {R W : Set TqLoc} {op : TqMem F → TqMem F} (hop : Footprint R W op)
    (hW : ∀ i, TqLoc.f b i ∉ W) : (op mem).Holds b n v :=
  h.kept (hop.frame mem) hW

/-- Two buffers. -/
theorem f_not_span {b b' : TqBuf} (hne : b ≠ b') (a n i : Nat) : TqLoc.f b i ∉ span b' a n := by
  rintro ⟨j, _, heq⟩
  injection heq with hb _
  exact hne hb

/-! ## Filling a buffer -/

/-- A read that no earlier round of a loop over `b` has changed. -/
theorem dependsOn_later {b b' : TqBuf} {c : Nat → Nat} {i j : Nat} (h : b' = b → ∀ k < i, j ≠ c k) :
    DependsOn (fun mem : TqMem F => mem.f b' j) {l | ∀ k < i, l ≠ TqLoc.f b (c k)} := by
  refine dependsOn_f fun k hk heq => ?_
  injection heq with hb hj
  exact h hb k hk hj

theorem fill_value {b : TqBuf} {a n : Nat} {g : Nat → TqMem F → F}
    (h : ∀ i < n, DependsOn (g i) {l | ∀ k < i, l ≠ TqLoc.f b (a + k)}) (mem : TqMem F) :
    ∀ i < n, (forUp n (fun i (mem : TqMem F) => mem.put (.f b (a + i)) (g i mem)) mem).f b
      (a + i) = g i mem := by
  refine fill_apply (c := fun i => TqLoc.f b (a + i)) (g := g) (fun i _ k hk heq => ?_) h mem
  injection heq with _ hidx
  omega

theorem fill_holds {b : TqBuf} {n : Nat} {g : Nat → TqMem F → F}
    (h : ∀ i < n, DependsOn (g i) {l | ∀ k < i, l ≠ TqLoc.f b k}) (mem : TqMem F) :
    (forUp n (fun i (mem : TqMem F) => mem.put (.f b i) (g i mem)) mem).Holds b n
      fun i => g i mem := by
  refine fill_apply (c := TqLoc.f b) (g := g) (fun i _ k hk heq => ?_) h mem
  injection heq with _ hidx
  exact hk.ne hidx

/-! ## Vectors -/

/-- A norm, also in place. -/
theorem tqRmsnorm_holds {out src : TqBuf} {w x : Nat → F} {n : Nat} {eps : F}
    (h : mem.Holds src n x) :
    (tqRmsnorm O out src w n eps mem).Holds out n (normed O n eps w x) := by
  have hfill := @fill_holds F out n
    (fun i mem' => O.mul (w i) (O.mul (rmsScale O n eps (mem.f src)) (mem'.f src i)))
    (fun i _ => ?_) mem
  · intro i hi
    refine (hfill i hi).trans ?_
    show O.mul (w i) (O.mul (rmsScale O n eps (mem.f src)) (mem.f src i)) = _
    rw [rmsScale_congr O eps h, h i hi]
    rfl
  · exact dependsOn_map (fun v => O.mul (w i) (O.mul (rmsScale O n eps (mem.f src)) v))
      (dependsOn_later fun _ k hk => hk.ne')

theorem tqAddInto_holds {dst src : TqBuf} (hne : src ≠ dst) {n : Nat} {x y : Nat → F}
    (hx : mem.Holds dst n x) (hy : mem.Holds src n y) :
    (tqAddInto O dst src n mem).Holds dst n fun i => O.add (x i) (y i) := by
  have hfill := @fill_holds F dst n (fun i mem' => O.add (mem'.f dst i) (mem'.f src i))
    (fun i _ => ?_) mem
  · intro i hi
    refine (hfill i hi).trans ?_
    show O.add (mem.f dst i) (mem.f src i) = _
    rw [hx i hi, hy i hi]
  · exact dependsOn_map₂ O.add (dependsOn_later fun _ k hk => hk.ne') (dependsOn_later
      fun h => absurd h hne)

theorem tqSwiglu_holds {n : Nat} {v w : Nat → F} (hv : mem.Holds .hb n v)
    (hw : mem.Holds .hb3 n w) : (tqSwiglu O n mem).Holds .hb n (swiglu O v w) := by
  have hfill := @fill_holds F .hb n (fun i mem' =>
    O.mul (O.div (mem'.f .hb i) (O.add (O.ofInt 1) (O.tqExpf (O.neg (mem'.f .hb i)))))
      (mem'.f .hb3 i))
    (fun i _ => ?_) mem
  · intro i hi
    refine (hfill i hi).trans ?_
    dsimp only
    rw [hv i hi, hw i hi]
    rfl
  · exact dependsOn_map₂ (fun v w => O.mul (O.div v (O.add (O.ofInt 1) (O.tqExpf (O.neg v)))) w)
      (dependsOn_later fun _ k hk => hk.ne') (dependsOn_later fun h => absurd h (by decide))

/-- A vector of whole blocks. -/
theorem tqQuantizeMem_holds {src : TqBuf} {out : TqQuant} {n : Nat} {x : Nat → F}
    (h : mem.Holds src n x) :
    (tqQuantizeMem O src out n mem).HoldsBlocks out (n / tqGroupSize) (quantized O x) := by
  intro b hb
  refine (fill_apply (c := TqLoc.blk out) (g := fun b (mem : TqMem F) =>
    quantizeBlock O fun j => mem.f src (b * tqGroupSize + j)) (fun i _ k hk heq => ?_)
      (fun i _ => ?_)
    mem b hb).trans ?_
  · injection heq with _ hidx
    exact absurd hidx hk.ne
  · intro m₁ m₂ hA
    refine quantizeBlock_congr O fun j _ => ?_
    exact hA (.f src (i * tqGroupSize + j)) fun k _ heq => by cases heq
  · refine quantizeBlock_congr O fun j hj => h _ ?_
    have hend := Nat.mul_le_mul_right tqGroupSize (Nat.succ_le_of_lt hb)
    rw [Nat.succ_mul] at hend
    have hn := Nat.div_mul_le_self n tqGroupSize
    omega

theorem tqDotRows_holds {out : TqBuf} {dtype rowBytes nb d : Nat} {acts : TqQuant} {ws : List UInt8}
    {x : Nat → TqBlockQ80} (h : mem.HoldsBlocks acts nb x) :
    (tqDotRows O out dtype rowBytes nb acts ws 0 d mem).Holds out d fun r =>
      rowDot O dtype (slice ws (r * rowBytes) rowBytes) x nb := by
  intro r hr
  have hfill := fill_value (b := out) (a := 0) (n := d) (g := fun r (mem : TqMem F) =>
    rowDot O dtype (slice ws (r * rowBytes) rowBytes) (mem.blk acts) nb) (fun i _ m₁ m₂ hA =>
      rowDot_congr O dtype _ fun b _ => hA (.blk acts b) fun k _ heq => by cases heq) mem r hr
  rw [Nat.zero_add] at hfill
  exact hfill.trans (rowDot_congr O dtype _ h)

/-! ## The softmax -/

/-- The exponentials and their sum. -/
theorem softmax_exps (b : TqBuf) (off n : Nat) (max : F) (mem : TqMem F) :
    let e := fun i => O.tqExpf (O.sub (mem.f b (off + i)) max)
    let exps := forUp n (fun i (s : TqMem F × F) =>
      let v := O.tqExpf (O.sub (s.1.f b (off + i)) max)
      (s.1.put (.f b (off + i)) v, O.add s.2 v)) (mem, O.ofInt 0)
    (∀ i < n, exps.1.f b (off + i) = e i) ∧
      exps.2 = forUp n (fun i s => O.add s (e i)) (O.ofInt 0) := by
  intro e exps
  have hinv := forUp_inv (n := n) (s := (mem, O.ofInt 0))
    (f := fun i (s : TqMem F × F) =>
      (s.1.put (.f b (off + i)) (O.tqExpf (O.sub (s.1.f b (off + i)) max)),
        O.add s.2 (O.tqExpf (O.sub (s.1.f b (off + i)) max))))
    (I := fun k s => (∀ i < k, s.1.f b (off + i) = e i) ∧
      (∀ i, k ≤ i → s.1.f b (off + i) = mem.f b (off + i)) ∧
      s.2 = forUp k (fun i s => O.add s (e i)) (O.ofInt 0)) ⟨nofun, fun _ _ => rfl, rfl⟩ ?_
  · exact ⟨hinv.1, hinv.2.2⟩
  · rintro k - s ⟨hdone, hrest, hsum⟩
    have hnew : O.tqExpf (O.sub (s.1.f b (off + k)) max) = e k := by rw [hrest k (Nat.le_refl k)]
    refine ⟨fun i hi => ?_, fun i hi => ?_, ?_⟩
    · rw [f_put]
      rcases Nat.lt_succ_iff_lt_or_eq.mp hi with hlt | rfl
      · rw [if_neg (by omega)]
        exact hdone i hlt
      · rw [if_pos ⟨rfl, rfl⟩]
        exact hnew
    · rw [f_put, if_neg (by omega)]
      exact hrest i (by omega)
    · show O.add s.2 _ = _
      rw [hnew, hsum]
      rfl

theorem softmax_scaled (b : TqBuf) (off n : Nat) (sum : F) (mem : TqMem F) : ∀ i < n,
    (forUp n (fun i (mem : TqMem F) => mem.put (.f b (off + i)) (O.mul (mem.f b (off + i)) sum))
      mem).f b (off + i) =
      O.mul (mem.f b (off + i)) sum :=
  fill_value (fun _ _ => dependsOn_map (fun v => O.mul v sum)
    (dependsOn_later fun _ _ hk => (Nat.add_lt_add_left hk off).ne')) mem

theorem tqSoftmax_value {b : TqBuf} {off n : Nat} (hn : 0 < n) {x : Nat → F}
    (h : ∀ i < n, mem.f b (off + i) = x i) :
    ∀ i < n, (tqSoftmax O b off n mem).f b (off + i) = softmaxed O n x i := by
  intro i hi
  obtain ⟨hexps, hsum⟩ :=
    softmax_exps (O := O) b off n (softmaxMax O n fun i => mem.f b (off + i)) mem
  refine (softmax_scaled b off n _ _ i hi).trans ?_
  dsimp only [memory_f, memory_put] at hexps hsum ⊢
  rw [hexps i hi, hsum]
  exact softmaxed_congr O hn h hi

/-! ## The rotation -/

section Rope
variable {m : TqModel}

/-- The tables of a position. -/
structure RopeHeld (O : FloatOps F) (m : TqModel) (pos : Nat) (mem : TqMem F) : Prop where
  cos : ∀ i < m.headSize / 2, mem.f .ropeCos i = O.tqCosf (ropeAngle O m pos i)
  sin : ∀ i < m.headSize / 2, mem.f .ropeSin i = O.tqSinf (ropeAngle O m pos i)

theorem tqRopePrepare_held (pos : Nat) (mem : TqMem F) :
    RopeHeld O m pos (tqRopePrepare O m pos mem) := by
  have hinv := forUp_inv (n := m.headSize / 2) (s := mem)
    (f := fun i (mem : TqMem F) =>
      (mem.put (.f .ropeCos i) (O.tqCosf (ropeAngle O m pos i))).put (.f .ropeSin i)
        (O.tqSinf (ropeAngle O m pos i)))
    (I := fun k (mem : TqMem F) => ∀ i < k, mem.f .ropeCos i = O.tqCosf (ropeAngle O m pos i) ∧
      mem.f .ropeSin i = O.tqSinf (ropeAngle O m pos i)) nofun ?_
  · exact ⟨fun i hi => (hinv i hi).1, fun i hi => (hinv i hi).2⟩
  · intro k _ mem h i hi
    simp only [f_put, true_and, reduceCtorEq, false_and, if_false]
    rcases Nat.lt_succ_iff_lt_or_eq.mp hi with hlt | rfl
    · rw [if_neg hlt.ne, if_neg hlt.ne]
      exact h i hlt
    · rw [if_pos rfl, if_pos rfl]
      exact ⟨rfl, rfl⟩

/-- **A rotation in place.** -/
theorem tqRopeApply_holds {v : TqBuf} (hcos : v ≠ .ropeCos) (hsin : v ≠ .ropeSin)
    (hhead : 0 < m.headSize) {n pos : Nat} {x : Nat → F} (htab : RopeHeld O m pos mem)
    (h : mem.Holds v (n * m.headSize) x) :
    (tqRopeApply O m v (n * m.headSize) mem).Holds v (n * m.headSize) (roped O m pos x) := by
  have hheads : (n * m.headSize + m.headSize - 1) / m.headSize = n := by
    rw [Nat.add_sub_assoc hhead, Nat.mul_comm, Nat.mul_add_div hhead,
      Nat.div_eq_of_lt (Nat.sub_lt hhead Nat.one_pos), Nat.add_zero]
  unfold tqRopeApply
  rw [hheads]
  have hinv := forUp_inv (n := n) (s := mem)
    (f := fun h mem => forUp (m.headSize / 2)
      (fun i mem => tqRotatePair O v (h * m.headSize) i mem) mem)
    (I := fun k mem' => (∀ j < k * m.headSize, mem'.f v j = roped O m pos x j) ∧
      (∀ j, k * m.headSize ≤ j → mem'.f v j = mem.f v j) ∧
      (∀ b ≠ v, ∀ j, mem'.f b j = mem.f b j)) ?_ ?_
  · exact hinv.1
  · refine ⟨fun j hj => ?_, fun _ _ => rfl, fun _ _ _ => rfl⟩
    rw [Nat.zero_mul] at hj
    exact absurd hj (Nat.not_lt_zero j)
  rintro k hk mem₁ ⟨hdone, hrest, hother⟩
  obtain ⟨hpairs, hout, hbuf⟩ := rotateHead (O := O) hcos hsin (k * m.headSize) mem₁
    (m.headSize / 2)
  refine ⟨fun j hj => ?_, fun j hj => ?_, fun b hb j => (hbuf b hb j).trans (hother b hb j)⟩
  · rw [Nat.succ_mul] at hj
    by_cases hlt : j < k * m.headSize
    · exact (hout j (.inl hlt)).trans (hdone j hlt)
    -- the element of this head, by its place in it
    obtain ⟨r, rfl⟩ := Nat.exists_eq_add_of_le (Nat.not_lt.mp hlt)
    have hr : r < m.headSize := by omega
    have hend : k * m.headSize + m.headSize ≤ n * m.headSize := head_le hk
    have hread : ∀ i < m.headSize, mem₁.f v (k * m.headSize + i) = x (k * m.headSize + i) :=
      fun i hi =>
      (hrest _ (Nat.le_add_right _ _)).trans (h _ (by omega))
    have hc : ∀ i < m.headSize / 2, mem₁.f .ropeCos i = O.tqCosf (ropeAngle O m pos i) :=
      fun i hi =>
      (hother _ hcos.symm i).trans (htab.cos i hi)
    have hs : ∀ i < m.headSize / 2, mem₁.f .ropeSin i = O.tqSinf (ropeAngle O m pos i) :=
      fun i hi =>
      (hother _ hsin.symm i).trans (htab.sin i hi)
    have hmod : (k * m.headSize + r) % m.headSize = r := by
      rw [Nat.mul_comm, Nat.mul_add_mod, Nat.mod_eq_of_lt hr]
    unfold roped
    dsimp only
    rw [hmod]
    by_cases hodd : r % 2 = 1
    · have hi : r / 2 < m.headSize / 2 := by omega
      have hrot := (hpairs (r / 2) hi).odd
      rw [show k * m.headSize + 2 * (r / 2) + 1 = k * m.headSize + r by omega,
        show k * m.headSize + 2 * (r / 2) = k * m.headSize + (r - 1) by omega, hread _ hr,
          hread (r - 1) (by omega),
        hc _ hi, hs _ hi] at hrot
      rw [if_pos hodd, Nat.add_sub_assoc (by omega)]
      exact hrot
    · rw [if_neg hodd]
      by_cases hpair : r + 1 < m.headSize
      · have hi : r / 2 < m.headSize / 2 := by omega
        have hrot := (hpairs (r / 2) hi).even
        rw [show k * m.headSize + 2 * (r / 2) = k * m.headSize + r by omega, hread _ hr,
          Nat.add_assoc, hread (r + 1) hpair, hc _ hi, hs _ hi] at hrot
        rw [if_pos hpair]
        exact hrot
      · rw [if_neg hpair]
        exact (hout _ (.inr (by omega))).trans (hread r hr)
  · rw [Nat.succ_mul] at hj
    exact (hout j (.inr (by omega))).trans (hrest j (by omega))

end Rope

/-! ## The cache -/

section Cache
variable {m : TqModel} {rt : TqRuntime}

/-- What a head of a byte cache holds. -/
def HeadHeld (O : FloatOps F) (m : TqModel) (mem : TqMem F) (idx sidx h : Nat)
    (row : KvRow F) : Prop :=
  (mem.f .kScale (sidx + h) = headScale O m row.key h ∧ mem.f .vScale (sidx + h) =
    headScale O m row.value h) ∧
    ∀ i < m.headSize, mem.i8 .kCache (idx + (h * m.headSize + i)) = headByte O m row.key h i ∧
      mem.i8 .vCache (idx + (h * m.headSize + i)) = headByte O m row.value h i

/-- Reading the row of a layer and a position gives what a cache keeps of `row`. -/
def RowHeld (O : FloatOps F) (m : TqModel) (rt : TqRuntime) (mem : TqMem F) (layer pos : Nat)
    (row : KvRow F) : Prop :=
  match rt.kvDtype with
  | .f32 => ∀ i < m.kvDim, mem.f .kCache (kvRow rt layer pos * m.kvDim + i) = row.key i ∧
      mem.f .vCache (kvRow rt layer pos * m.kvDim + i) = row.value i
  | .q8 => ∀ h < m.nKvHeads,
      HeadHeld O m mem (kvRow rt layer pos * m.kvDim) (kvRow rt layer pos * m.nKvHeads) h row

/-- A row is held where its locations are as they were. -/
theorem RowHeld.agree (hkv : m.kvDim = m.headSize * m.nKvHeads) {layer pos : Nat} {row : KvRow F}
    {mem' : TqMem F} (h : RowHeld O m rt mem layer pos row)
    (hA : ∀ l ∈ cacheRow m rt layer pos, mem' l = mem l) :
    RowHeld O m rt mem' layer pos row := by
  unfold RowHeld at h ⊢
  cases hdtype : rt.kvDtype with
  | f32 =>
      rw [hdtype] at h
      rw [cacheRow_f32 m rt hdtype] at hA
      intro i hi
      exact ⟨(hA (.f .kCache _) (.inl (mem_span_add hi))).trans (h i hi).1,
        (hA (.f .vCache _) (.inr (mem_span_add hi))).trans (h i hi).2⟩
  | q8 =>
      rw [hdtype] at h
      rw [cacheRow_q8 m rt hdtype] at hA
      intro hd hhd
      obtain ⟨⟨hks, hvs⟩, hbytes⟩ := h hd hhd
      refine ⟨⟨(hA (.f .kScale _) (.inl (.inr (mem_span_add hhd)))).trans hks,
        (hA (.f .vScale _) (.inr (.inr (mem_span_add hhd)))).trans hvs⟩, fun i hi => ?_⟩
      have hin : hd * m.headSize + i < m.kvDim := by
        have hend := @head_le hd m.nKvHeads m.headSize hhd
        rw [hkv, Nat.mul_comm m.headSize]
        omega
      exact ⟨(hA (.i8 .kCache _) (.inl (.inl ⟨_, hin, rfl⟩))).trans (hbytes i hi).1,
        (hA (.i8 .vCache _) (.inr (.inl ⟨_, hin, rfl⟩))).trans (hbytes i hi).2⟩

/-- One head of a byte cache. -/
theorem tqKvQuantHead_value {cache : TqBytes} {scale src : TqBuf} (hsrc : src ≠ scale)
    {idx sidx h : Nat} {x : Nat → F} (hx : ∀ i < m.headSize, mem.f src (h * m.headSize + i) =
    x (h * m.headSize + i)) :
    let mem' := tqKvQuantHead O cache scale src m.headSize idx sidx (h * m.headSize) mem
    mem'.f scale sidx = headScale O m x h ∧
      ∀ i < m.headSize, mem'.i8 cache (idx + (h * m.headSize + i)) = headByte O m x h i := by
  intro mem'
  have hks : O.div (absMax O m.headSize fun i => mem.f src (h * m.headSize + i)) (O.ofInt 127) =
      headScale O m x h := by
    unfold headScale
    rw [absMax_congr O hx]
  let ks : F := headScale O m x h
  let g := fun i (mem : TqMem F) => Int8.ofInt (roundClamp O (O.mul (mem.f src (h * m.headSize + i))
    (if O.beq ks (O.ofInt 0) then O.ofInt 0 else O.div (O.ofInt 1) ks)))
  have hmem : mem' = forUp m.headSize (fun i (mem : TqMem F) =>
      mem.put (.i8 cache (idx + (h * m.headSize + i))) (g i mem)) (mem.put (.f scale sidx) ks) := by
    show tqKvQuantHead O cache scale src m.headSize idx sidx (h * m.headSize) mem = _
    unfold tqKvQuantHead
    dsimp only [memory_f, memory_put]
    rw [hks]
  rw [hmem]
  constructor
  · refine (fill_frame (fun i => TqLoc.i8 cache (idx + (h * m.headSize + i))) g _
      fun k _ heq => by cases heq).trans ?_
    exact Function.update_self _ _ _
  · intro i hi
    refine (fill_apply (c := fun i => TqLoc.i8 cache (idx + (h * m.headSize + i))) (g := g)
      (fun j _ k hk heq => ?_) (fun j _ => ?_) _ i hi).trans ?_
    · injection heq with _ hidx
      omega
    · exact dependsOn_map (fun v => Int8.ofInt (roundClamp O (O.mul v _))) (dependsOn_f
        fun k _ heq => by cases heq)
    · show Int8.ofInt
        (roundClamp O (O.mul (((mem.put (.f scale sidx) ks).f src (h * m.headSize + i))) _)) = _
      rw [f_put, if_neg fun h => hsrc h.1, hx i hi]
      rfl

theorem fill_other {b b' : TqBuf} (hne : b' ≠ b) (a n : Nat) (g : Nat → TqMem F → F)
    (mem : TqMem F) (j : Nat) :
    (forUp n (fun i (mem : TqMem F) => mem.put (.f b (a + i)) (g i mem)) mem).f b' j =
    mem.f b' j := by
  refine fill_frame (fun i => TqLoc.f b (a + i)) g mem fun k _ heq => ?_
  injection heq with hb _
  exact hne hb

/-- The heads of a store are apart. -/
theorem HeadHeld.keep {idx sidx h k : Nat} (hlt : h < k) {row : KvRow F}
    (hheld : HeadHeld O m mem idx sidx h row) {cache : TqBytes} {scale src : TqBuf} :
    HeadHeld O m (tqKvQuantHead O cache scale src m.headSize idx (sidx + k) (k * m.headSize) mem)
      idx sidx h row := by
  have hframe :=
    (tqKvQuantHead_footprint O cache scale src m.headSize idx (sidx + k) (k * m.headSize)).frame mem
  have hscale : ∀ b, TqLoc.f b (sidx + h) ∉
      ({TqLoc.f scale (sidx + k)} ∪ byteSpan cache (idx + k * m.headSize) m.headSize) := by
    rintro b (heq | ⟨_, _, heq⟩)
    · injection heq with _ hidx
      omega
    · cases heq
  have hbyte : ∀ b i, i < m.headSize → TqLoc.i8 b (idx + (h * m.headSize + i)) ∉
      ({TqLoc.f scale (sidx + k)} ∪ byteSpan cache (idx + k * m.headSize) m.headSize) := by
    rintro b i hi (heq | ⟨j, _, heq⟩)
    · cases heq
    · injection heq with _ hidx
      have hend := @head_le h k m.headSize hlt
      omega
  obtain ⟨⟨hks, hvs⟩, hbytes⟩ := hheld
  refine ⟨⟨(hframe _ (hscale .kScale)).trans hks, (hframe _ (hscale .vScale)).trans hvs⟩,
    fun i hi => ?_⟩
  exact ⟨(hframe _ (hbyte .kCache i hi)).trans (hbytes i hi).1,
    (hframe _ (hbyte .vCache i hi)).trans (hbytes i hi).2⟩

/-- **A store** of a key and a value. -/
theorem tqKvStore_held (hkv : m.kvDim = m.headSize * m.nKvHeads) {layer pos : Nat} {row : KvRow F}
    (hkey : mem.Holds .kb m.kvDim row.key) (hvalue : mem.Holds .vb m.kvDim row.value) :
    RowHeld O m rt (tqKvStore O m rt layer pos mem) layer pos row := by
  unfold tqKvStore RowHeld
  dsimp only
  generalize kvRow rt layer pos * m.kvDim = idx
  generalize kvRow rt layer pos * m.nKvHeads = sidx
  cases rt.kvDtype with
  | f32 =>
      have hcopy : ∀ (b src : TqBuf) (mem : TqMem F), src ≠ b →
          ∀ i < m.kvDim, (forUp m.kvDim (fun i (mem : TqMem F) =>
            mem.put (.f b (idx + i)) (mem.f src i)) mem).f b (idx + i) =
              mem.f src i := fun b src mem hne =>
        fill_value (fun _ _ => dependsOn_later fun h => absurd h hne) mem
      intro i hi
      constructor
      · refine (fill_other (by decide) _ _ (fun i mem => mem.f .vb i) _ _).trans ?_
        exact (hcopy .kCache .kb mem (by decide) i hi).trans (hkey i hi)
      · refine (hcopy .vCache .vb _ (by decide) i hi).trans ?_
        exact (fill_other (by decide) _ _ (fun i mem => mem.f .kb i) _ _).trans (hvalue i hi)
  | q8 =>
      have hinv := forUp_inv (n := m.nKvHeads) (s := mem)
        (f := fun h mem => tqKvQuantHead O .vCache .vScale .vb m.headSize idx (sidx + h)
          (h * m.headSize) (tqKvQuantHead O .kCache .kScale .kb m.headSize idx (sidx + h)
          (h * m.headSize) mem))
        (I := fun k mem' => (∀ h < k, HeadHeld O m mem' idx sidx h row) ∧
          mem'.Holds .kb m.kvDim row.key ∧ mem'.Holds .vb m.kvDim row.value) ⟨nofun,
          hkey, hvalue⟩ ?_
      · exact hinv.1
      rintro k hk mem' ⟨hdone, hkey, hvalue⟩
      have hhead : ∀ i < m.headSize, k * m.headSize + i < m.kvDim := fun i hi => by
        have hend := @head_le k m.nKvHeads m.headSize hk
        rw [hkv, Nat.mul_comm m.headSize]
        omega
      have hfk := tqKvQuantHead_footprint O .kCache .kScale .kb m.headSize idx (sidx + k)
        (k * m.headSize)
      have hfv := tqKvQuantHead_footprint O .vCache .vScale .vb m.headSize idx (sidx + k)
        (k * m.headSize)
      have hkeep : ∀ {b : TqBuf} {v : Nat → F} {mem : TqMem F}, b = .kb ∨ b = .vb →
          mem.Holds b m.kvDim v →
          (tqKvQuantHead O .kCache .kScale .kb m.headSize idx (sidx + k) (k * m.headSize) mem).Holds
          b m.kvDim v ∧
          (tqKvQuantHead O .vCache .vScale .vb m.headSize idx (sidx + k) (k * m.headSize) mem).Holds
          b m.kvDim v := by
        rintro b v mem hb h
        constructor
        · refine h.frame hfk fun i hi => ?_
          rcases hi with heq | ⟨_, _, heq⟩
          · rcases hb with rfl | rfl <;> cases heq
          · cases heq
        · refine h.frame hfv fun i hi => ?_
          rcases hi with heq | ⟨_, _, heq⟩
          · rcases hb with rfl | rfl <;> cases heq
          · cases heq
      have hkey₁ := (hkeep (.inl rfl) hkey).1
      have hvalue₁ := (hkeep (.inr rfl) hvalue).1
      refine ⟨fun h hh => ?_, (hkeep (.inl rfl) hkey₁).2, (hkeep (.inr rfl) hvalue₁).2⟩
      rcases Nat.lt_succ_iff_lt_or_eq.mp hh with hlt | rfl
      · exact (hdone h hlt).keep hlt |>.keep hlt
      · obtain ⟨hks, hkb⟩ := @tqKvQuantHead_value F O mem' m .kCache .kScale .kb (by decide) idx
          (sidx + h) h row.key fun i hi => hkey _ (hhead i hi)
        obtain ⟨hvs, hvb⟩ := @tqKvQuantHead_value F O _ m .vCache .vScale .vb (by decide) idx
          (sidx + h) h row.value fun i hi => hvalue₁ _ (hhead i hi)
        refine ⟨⟨(hfv.frame _ _ ?_).trans hks, hvs⟩,
          fun i hi => ⟨(hfv.frame _ _ ?_).trans (hkb i hi), hvb i hi⟩⟩
        · rintro (heq | ⟨_, _, heq⟩)
          · cases heq
          · cases heq
        · rintro (heq | ⟨_, _, heq⟩)
          · cases heq
          · cases heq

/-- Only activations were written. -/
theorem RowHeld.frame (hkv : m.kvDim = m.headSize * m.nKvHeads) {layer pos : Nat} {row : KvRow F}
    (h : RowHeld O m rt mem layer pos row) {R W : Set TqLoc} {op : TqMem F → TqMem F}
    (hop : Footprint R W op) (hW : W ⊆ activations) : RowHeld O m rt (op mem) layer pos row :=
  h.agree hkv fun l hl => hop.frame mem l fun hw => activations_not_cache m rt (hW hw) layer pos hl

/-! ## Attention -/

theorem tqKvDotK_value {layer t kvh qo : Nat} (hkv : m.kvDim = m.headSize * m.nKvHeads)
    (hkvh : kvh < m.nKvHeads) {q : Nat → F} (hq : mem.Holds .q m.dim q)
    (hqo : qo + m.headSize ≤ m.dim) {row : KvRow F} (hrow : RowHeld O m rt mem layer t row) :
    tqKvDotK O m rt layer t kvh qo mem = keyDot O m rt.kvDtype row kvh q qo := by
  unfold RowHeld at hrow
  unfold tqKvDotK keyDot
  dsimp only [memory_f, memory_i8]
  cases hdtype : rt.kvDtype with
  | f32 =>
      rw [hdtype] at hrow
      refine forUp_congr _ fun i hi s => ?_
      have hin : kvh * m.headSize + i < m.kvDim := by
        have hend := @head_le kvh m.nKvHeads m.headSize hkvh
        rw [hkv, Nat.mul_comm m.headSize]
        omega
      rw [hq _ (by omega), Nat.add_assoc, (hrow _ hin).1]
  | q8 =>
      rw [hdtype] at hrow
      obtain ⟨⟨hks, -⟩, hbytes⟩ := hrow kvh hkvh
      dsimp only
      rw [hks]
      congr 1
      refine forUp_congr _ fun i hi s => ?_
      rw [hq _ (by omega), Nat.add_assoc, (hbytes i hi).1]

theorem tqKvAccV_value {layer t kvh ao oo : Nat} (hkv : m.kvDim = m.headSize * m.nKvHeads)
    (hkvh : kvh < m.nKvHeads) {row : KvRow F} (hrow : RowHeld O m rt mem layer t row) :
    ∀ i < m.headSize,
    (tqKvAccV O m rt layer t kvh ao oo mem).f .xb (oo + i) =
      O.add (mem.f .xb (oo + i)) (valueTerm O m rt.kvDtype row (mem.f .att ao) kvh i) := by
  intro i hi
  unfold RowHeld at hrow
  unfold tqKvAccV valueTerm
  dsimp only
  cases hdtype : rt.kvDtype with
  | f32 =>
      rw [hdtype] at hrow
      have hin : kvh * m.headSize + i < m.kvDim := by
        have hend := @head_le kvh m.nKvHeads m.headSize hkvh
        rw [hkv, Nat.mul_comm m.headSize]
        omega
      refine (fill_value (g := fun i (mem' : TqMem F) => O.add (mem'.f .xb (oo + i))
        (O.mul (mem.f .att ao)
        (mem'.f .vCache (kvRow rt layer t * m.kvDim + kvh * m.headSize + i)))) (fun j _ => ?_) mem
        i hi).trans ?_
      · exact dependsOn_map₂ (fun x v => O.add x (O.mul (mem.f .att ao) v))
          (dependsOn_later fun _ k hk => (Nat.add_lt_add_left hk oo).ne')
          (dependsOn_later fun h => absurd h (by decide))
      · dsimp only
        rw [Nat.add_assoc, (hrow _ hin).2]
  | q8 =>
      rw [hdtype] at hrow
      obtain ⟨⟨-, hvs⟩, hbytes⟩ := hrow kvh hkvh
      refine (fill_value (g := fun i (mem' : TqMem F) => O.add (mem'.f .xb (oo + i))
        (O.mul (O.mul (mem.f .att ao) (mem.f .vScale (kvRow rt layer t * m.nKvHeads + kvh)))
          (O.ofInt (mem'.i8 .vCache (kvRow rt layer t * m.kvDim + kvh * m.headSize + i)).toInt)))
            (fun j _ => ?_)
        mem i hi).trans ?_
      · exact dependsOn_map₂ (fun x (v : Int8) => O.add x (O.mul _ (O.ofInt v.toInt)))
          (dependsOn_later fun _ k hk => (Nat.add_lt_add_left hk oo).ne') (dependsOn_i8
            fun k _ heq => by cases heq)
      · dsimp only
        rw [Nat.add_assoc, (hbytes i hi).2, hvs]

/-- What a head needs of the memory: the query and the rows up to its position. -/
structure Attending (O : FloatOps F) (m : TqModel) (rt : TqRuntime) (layer pos : Nat) (q : Nat → F)
    (rows : Nat → KvRow F) (mem : TqMem F) : Prop where
  query : mem.Holds .q m.dim q
  rows : ∀ t ≤ pos, RowHeld O m rt mem layer t (rows t)

theorem Attending.frame (hkv : m.kvDim = m.headSize * m.nKvHeads) {layer pos : Nat} {q : Nat → F}
    {rows : Nat → KvRow F} (h : Attending O m rt layer pos q rows mem) {R W : Set TqLoc}
    {op : TqMem F → TqMem F} (hop : Footprint R W op) (hW : W ⊆ activations)
    (hq : ∀ i, TqLoc.f .q i ∉ W) : Attending O m rt layer pos q rows (op mem) :=
  ⟨h.query.frame hop hq, fun t ht => (h.rows t ht).frame hkv hop hW⟩

/-- The scores of a head. -/
theorem headScores_value (hm : m.Sized) {layer pos h : Nat} (hh : h < m.nHeads) {q : Nat → F}
    {rows : Nat → KvRow F} (hatt : Attending O m rt layer pos q rows mem) :
    let scored := forUp (pos + 1) (fun t (mem : TqMem F) => mem.put (.f .att (h * rt.maxSeq + t))
      (O.mul (tqKvDotK O m rt layer t (h / m.kvMul) (h * m.headSize) mem) (invSqrtHeadSize O m)))
      mem
    (∀ t < pos + 1, scored.f .att (h * rt.maxSeq + t) =
      O.mul (keyDot O m rt.kvDtype (rows t) (h / m.kvMul) q (h * m.headSize))
      (invSqrtHeadSize O m)) ∧
      Attending O m rt layer pos q rows scored := by
  intro scored
  have hkvh : h / m.kvMul < m.nKvHeads := Nat.div_lt_of_lt_mul (hm.groups ▸ hh)
  have hqo : h * m.headSize + m.headSize ≤ m.dim := hm.heads ▸ head_le hh
  have hdep : ∀ t < pos + 1, DependsOn
      (fun mem : TqMem F => O.mul (tqKvDotK O m rt layer t (h / m.kvMul) (h * m.headSize) mem)
      (invSqrtHeadSize O m)) {l | ∀ k < t, l ≠ TqLoc.f .att (h * rt.maxSeq + k)} := by
    intro t _
    refine dependsOn_map (fun s => O.mul s (invSqrtHeadSize O m))
      ((tqKvDotK_dependsOn O hm.kv layer t (h * m.headSize) hkvh).mono ?_)
    rintro l (hl | hl) k _ rfl
    · obtain ⟨_, _, heq⟩ := hl
      cases heq
    · exact activations_not_cache m rt (show TqLoc.f .att _ ∈ activations from trivial) layer t hl
  constructor
  · intro t ht
    refine (fill_value hdep mem t ht).trans (congrArg (O.mul · (invSqrtHeadSize O m)) ?_)
    exact tqKvDotK_value hm.kv hkvh hatt.query hqo (hatt.rows t (Nat.le_of_lt_succ ht))
  · exact hatt.frame hm.kv (span_fill fun t ht => (hdep t ht).mono (Set.subset_univ _))
      (span_activations fun _ => trivial) (f_not_span (by decide) _ _)

/-- The weighted sum of a head. -/
theorem headSum_value (hm : m.Sized) {layer pos h : Nat} (hh : h < m.nHeads) {q w : Nat → F}
    {rows : Nat → KvRow F} (hatt : Attending O m rt layer pos q rows mem)
    (hw : ∀ t < pos + 1, mem.f .att (h * rt.maxSeq + t) = w t) :
    ∀ j < m.headSize, (forUp (pos + 1) (fun t mem =>
        tqKvAccV O m rt layer t (h / m.kvMul) (h * rt.maxSeq + t) (h * m.headSize) mem)
      (forUp m.headSize (fun i (mem : TqMem F) => mem.put (.f .xb (h * m.headSize + i)) (O.ofInt 0))
        mem)).f .xb
        (h * m.headSize + j) =
      forUp (pos + 1)
        (fun t acc => O.add acc (valueTerm O m rt.kvDtype (rows t) (w t) (h / m.kvMul) j))
        (O.ofInt 0) := by
  have hkvh : h / m.kvMul < m.nKvHeads := Nat.div_lt_of_lt_mul (hm.groups ▸ hh)
  have hzero := @fill_value F .xb (h * m.headSize) m.headSize (fun _ _ => O.ofInt 0)
    (fun _ _ _ _ _ => rfl) mem
  have hatt₀ :=
    hatt.frame hm.kv (@span_fill F ∅ .xb (h * m.headSize) m.headSize (fun _ _ => O.ofInt 0)
    fun _ _ _ _ _ => rfl) (span_activations fun _ => trivial) (f_not_span (by decide) _ _)
  have hw₀ : ∀ t < pos + 1, (forUp m.headSize (fun i (mem : TqMem F) =>
      mem.put (.f .xb (h * m.headSize + i)) (O.ofInt 0)) mem).f .att (h * rt.maxSeq + t) =
        w t := fun t ht =>
    (fill_other (by decide) _ _ (fun _ _ => O.ofInt 0) mem _).trans (hw t ht)
  generalize forUp m.headSize (fun i (mem : TqMem F) => mem.put (.f .xb (h * m.headSize + i))
    (O.ofInt 0)) mem = mem₀
    at hzero hatt₀ hw₀ ⊢
  have hinv := forUp_inv (n := pos + 1) (s := mem₀)
    (f := fun t mem => tqKvAccV O m rt layer t (h / m.kvMul) (h * rt.maxSeq + t)
      (h * m.headSize) mem)
    (I := fun k mem' => (∀ j < m.headSize, mem'.f .xb (h * m.headSize + j) =
      forUp k (fun t acc => O.add acc
        (valueTerm O m rt.kvDtype (rows t) (w t) (h / m.kvMul) j)) (O.ofInt 0)) ∧
      (∀ t < pos + 1, mem'.f .att (h * rt.maxSeq + t) = w t) ∧
        Attending O m rt layer pos q rows mem')
    ⟨hzero, hw₀, hatt₀⟩ ?_
  · exact hinv.1
  rintro t ht mem' ⟨hsum, hw, hatt'⟩
  have hfp := @tqKvAccV_footprint F O m rt hm.kv layer t (h * rt.maxSeq + t) (h * m.headSize) _ hkvh
  refine ⟨fun j hj => ?_, fun u hu => ?_, hatt'.frame hm.kv hfp (span_activations fun _ => trivial)
    (f_not_span (by decide) _ _)⟩
  · refine (tqKvAccV_value hm.kv hkvh (hatt'.rows t (Nat.le_of_lt_succ ht)) j hj).trans ?_
    rw [hsum j hj, hw t ht]
    rfl
  · refine (hfp.frame mem' _ ?_).trans (hw u hu)
    rintro ⟨_, _, heq⟩
    cases heq

/-- **A head**, from scores to the weighted sum. -/
theorem tqAttendHead_value (hm : m.Sized) {layer pos h : Nat} (hh : h < m.nHeads) {q : Nat → F}
    {rows : Nat → KvRow F} (hatt : Attending O m rt layer pos q rows mem) : ∀ j < m.headSize,
    (tqAttendHead O m rt layer pos h (invSqrtHeadSize O m) mem).f .xb (h * m.headSize + j) =
      headOut O m rt.kvDtype pos q rows h j := by
  obtain ⟨hscores, hatt₁⟩ := headScores_value hm hh hatt
  have hweights := tqSoftmax_value (O := O) (Nat.succ_pos pos) hscores
  have hatt₂ := hatt₁.frame hm.kv (tqSoftmax_footprint O .att (h * rt.maxSeq) (Nat.succ_pos pos))
    (span_activations fun _ => trivial) (f_not_span (by decide) _ _)
  exact headSum_value hm hh hatt₂ hweights

/-- **All heads**, one after the other. -/
theorem tqAttendHeads_hold (hm : m.Sized) {layer pos : Nat} {q : Nat → F} {rows : Nat → KvRow F}
    (hatt : Attending O m rt layer pos q rows mem) :
    (forUp m.nHeads (fun h mem => tqAttendHead O m rt layer pos h (invSqrtHeadSize O m) mem)
      mem).Holds .xb m.dim
      (attended O m rt.kvDtype pos q rows) := by
  have hinv := forUp_inv (n := m.nHeads) (s := mem)
    (f := fun h mem => tqAttendHead O m rt layer pos h (invSqrtHeadSize O m) mem)
    (I := fun k mem' => (∀ i < k * m.headSize, mem'.f .xb i =
      attended O m rt.kvDtype pos q rows i) ∧ Attending O m rt layer pos q rows mem') ?_ ?_
  · intro i hi
    exact hinv.1 i (hm.heads ▸ hi)
  · exact ⟨fun i hi => by rw [Nat.zero_mul] at hi; exact absurd hi (Nat.not_lt_zero i), hatt⟩
  rintro h hh mem' ⟨hdone, hatt'⟩
  have hfp := @tqAttendHead_footprint F O m rt hm layer pos h hh (invSqrtHeadSize O m)
  refine ⟨fun i hi => ?_,
    hatt'.frame hm.kv hfp (Set.union_subset (span_activations fun _ => trivial) (span_activations
    fun _ => trivial)) ?_⟩
  · rw [Nat.succ_mul] at hi
    by_cases hlt : i < h * m.headSize
    · refine (hfp.frame mem' _ ?_).trans (hdone i hlt)
      rintro (⟨_, _, heq⟩ | ⟨j, _, heq⟩)
      · cases heq
      · injection heq with _ hidx
        omega
    · obtain ⟨j, rfl⟩ := Nat.exists_eq_add_of_le (Nat.not_lt.mp hlt)
      have hj : j < m.headSize := by omega
      refine (tqAttendHead_value hm hh hatt' j hj).trans ?_
      unfold attended
      rw [Nat.mul_comm, Nat.mul_add_div hm.headSize_pos, Nat.div_eq_of_lt hj, Nat.add_zero,
        Nat.mul_add_mod, Nat.mod_eq_of_lt hj]
  · rintro i (⟨_, _, heq⟩ | ⟨_, _, heq⟩)
    · cases heq
    · cases heq

end Cache

end Values

end TinyLlm
