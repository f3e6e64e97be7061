/-
# `TinyLlm.Forward.Frame` — what a step leaves alone, over any memory

In a memory whose buffers may overlap, a write to one element can change
another.  An element is spared by a write that does not meet it (`Spared`), and
a part of a step leaves it alone if it is spared by every write to the buffers
that the part puts its results into (`Leaves`, `Spares`).  Nothing is asked of
the elements that are read.
-/
import TinyLlm.Forward.Context

namespace TinyLlm

open Loop Relational

section Leaves
variable {F M : Type} [TqMemory F M] (O : FloatOps F) {l : TqLoc}

variable (M) in
/-- The locations that can be written without a change to `l`. -/
def Spared (l : TqLoc) : Set TqLoc :=
  {l' | ∀ (mem : M) v, TqMemory.get (TqMemory.put mem l' v) l = TqMemory.get mem l}

omit [TqMemory F M] in
/-- Bytes that a location does not share. -/
theorem spared_of_disjoint {c : TqCodec F} {addr : TqLoc → Nat} {l' : TqLoc}
    (h : Disjoint (extent addr l') (extent addr l)) : l' ∈ Spared (TqFlat c addr) l := by
  have hne : l ≠ l' := by
    rintro rfl
    have hin : addr l ∈ extent addr l := ⟨Nat.le_refl _, Nat.lt_add_of_pos_right l.kind.width_pos⟩
    exact Set.disjoint_left.mp h hin hin
  have hlaw : Lawful (TqFlat c addr) {l, l'} := by
    refine lawful_flat ?_
    rintro a (rfl | rfl) b (rfl | rfl) hab
    · exact absurd rfl hab
    · exact h
    · exact h.symm
    · exact absurd rfl hab
  exact fun mem v => hlaw.other mem l' (.inr rfl) l (.inl rfl) hne v

omit [TqMemory F M] in
theorem spared_of_behind {c : TqCodec F} {addr : TqLoc → Nat} {l' : TqLoc}
    (h : addr l + l.kind.width ≤ addr l') :
    l' ∈ Spared (TqFlat c addr) l :=
  spared_of_disjoint
    (Set.Ico_disjoint_Ico.mpr ((min_le_right _ _).trans (h.trans (le_max_left _ _))))

/-- An operation on memory does not change `l`. -/
def Leaves (l : TqLoc) (op : M → M) : Prop := ∀ mem, TqMemory.get (op mem) l = TqMemory.get mem l

/-! ## Operations on memory -/

theorem Leaves.forUp {n : Nat} {body : Nat → M → M} (h : ∀ i < n, Leaves l (body i)) :
    Leaves l fun mem => forUp n body mem :=
  fun mem => forUp_inv (I := fun _ mem' => TqMemory.get mem' l = TqMemory.get mem l) rfl
    fun i hi mem' hmem =>
    (h i hi mem').trans hmem

/-- Elements of a buffer written one after the other. -/
theorem Leaves.fill {b : TqBuf} {a n : Nat} (h : ∀ i < n, .f b (a + i) ∈ Spared M l)
    (g : Nat → M → F) :
    Leaves l fun mem : M =>
      Loop.forUp n (fun i mem => TqMemory.put mem (.f b (a + i)) (g i mem)) mem :=
  Leaves.forUp fun i hi mem => h i hi mem (g i mem)

theorem Leaves.fill_zero {b : TqBuf} {n : Nat} (h : ∀ i < n, .f b i ∈ Spared M l)
    (g : Nat → M → F) :
    Leaves l fun mem : M => Loop.forUp n (fun i mem => TqMemory.put mem (.f b i) (g i mem)) mem :=
  Leaves.forUp fun i hi mem => h i hi mem (g i mem)

theorem tqRmsnorm_leaves {out : TqBuf} {n : Nat} (h : ∀ i < n, .f out i ∈ Spared M l) (src : TqBuf)
    (w : Nat → F) (eps : F) :
    Leaves l (tqRmsnorm O out src w n eps : M → M) := fun mem =>
  Leaves.fill_zero h
    (fun i mem' => O.mul (w i)
    (O.mul (rmsScale O n eps (TqMemory.f mem src)) (TqMemory.f mem' src i))) mem

theorem tqQuantizeMem_leaves {out : TqQuant} {n : Nat}
    (h : ∀ b < n / tqGroupSize, .blk out b ∈ Spared M l) (src : TqBuf) :
    Leaves l (tqQuantizeMem O src out n : M → M) :=
  Leaves.forUp fun b hb mem => h b hb mem _

theorem tqAddInto_leaves {dst : TqBuf} {n : Nat} (h : ∀ i < n, .f dst i ∈ Spared M l)
    (src : TqBuf) :
    Leaves l (tqAddInto O dst src n : M → M) :=
  Leaves.fill_zero h _

theorem tqSwiglu_leaves {n : Nat} (h : ∀ i < n, .f .hb i ∈ Spared M l) :
    Leaves l (tqSwiglu O n : M → M) :=
  Leaves.forUp fun i hi mem => h i hi mem _

theorem tqDotRows_leaves {out : TqBuf} {i rows : Nat} (h : ∀ r < rows, .f out (i + r) ∈ Spared M l)
    (dtype rowBytes nb : Nat) (acts : TqQuant) (ws : List UInt8) :
    Leaves l (tqDotRows O out dtype rowBytes nb acts ws i rows : M → M) :=
  Leaves.forUp fun r hr mem => h r hr mem _

theorem tqSoftmax_leaves {b : TqBuf} {off n : Nat} (h : ∀ i < n, .f b (off + i) ∈ Spared M l) :
    Leaves l (tqSoftmax O b off n : M → M) := by
  intro mem
  unfold tqSoftmax
  dsimp only
  refine (Leaves.fill h _ _).trans ?_
  exact forUp_inv (I := fun _ (s : M × F) => TqMemory.get s.1 l = TqMemory.get mem l) rfl
    fun i hi s hs =>
    (h i hi s.1 _).trans hs

section Cache
variable (m : TqModel) (rt : TqRuntime)

theorem tqKvAccV_leaves {oo : Nat} (h : ∀ i < m.headSize, .f .xb (oo + i) ∈ Spared M l)
    (layer t kvh ao : Nat) :
    Leaves l (tqKvAccV O m rt layer t kvh ao oo : M → M) := by
  intro mem
  unfold tqKvAccV
  dsimp only
  split
  · exact Leaves.forUp (fun i hi mem' => h i hi mem' _) mem
  · exact Leaves.forUp (fun i hi mem' => h i hi mem' _) mem

theorem tqAttendHead_leaves {pos h : Nat}
    (hatt : ∀ t < pos + 1, .f .att (h * rt.maxSeq + t) ∈ Spared M l)
    (hxb : ∀ i < m.headSize, .f .xb (h * m.headSize + i) ∈ Spared M l) (layer : Nat)
    (invSqrtHs : F) :
    Leaves l (tqAttendHead O m rt layer pos h invSqrtHs : M → M) := by
  intro mem
  unfold tqAttendHead
  dsimp only
  refine (Leaves.forUp (fun t _ => tqKvAccV_leaves O m rt hxb layer t _ _) _).trans ?_
  refine (Leaves.fill hxb (fun _ _ => O.ofInt 0) _).trans ?_
  refine (tqSoftmax_leaves O hatt _).trans ?_
  exact Leaves.fill hatt _ mem

end Cache

/-! ## Programs -/

/-- A program does not change `l`, whether it returns or fails. -/
abbrev Spares (l : TqLoc) {α : Type} (p : Tq (TqMachine M) α) : Prop :=
  Keeps (fun s t : TqMachine M => TqMemory.get t.mem l = TqMemory.get s.mem l) p

theorem Spares.bind {α β : Type} {p : Tq (TqMachine M) α} {f : α → Tq (TqMachine M) β}
    (hp : Spares l p) (hf : ∀ a, Spares l (f a)) : Spares l (p >>= f) :=
  Keeps.bind (fun _ _ _ hst htu => htu.trans hst) hp hf

theorem Spares.ok {α : Type} {p : Tq (TqMachine M) α} (hp : Spares l p) {s s' : TqMachine M}
    {r : Except Fault α} (h : p.exec s = (r, s')) : TqMemory.get s'.mem l = TqMemory.get s.mem l :=
  (congrArg (fun r => TqMemory.get r.2.mem l) h.symm).trans (hp s)

theorem onMem_spares {op : M → M} (h : Leaves l op) : Spares l (onMem op) := fun s => h s.mem

theorem onTile_spares {α : Type} (p : Tq TqTile α) : Spares l (onTile p : Tq (TqMachine M) α) :=
  fun _ => rfl

theorem fail_spares {α : Type} (rc : TqStatus) : Spares l (fail rc : Tq (TqMachine M) α) :=
  fun _ => rfl

section Store
variable (st : TqStore)

theorem tqNorm_spares {out : TqBuf} {n : Nat} (h : ∀ i < n, .f out i ∈ Spared M l) (src : TqBuf)
    (wOff : Nat) (eps : F) :
    Spares l (tqNorm O st out src wOff n eps : Tq (TqMachine M) Unit) :=
  (onTile_spares _).bind fun _ => (onTile_spares _).bind
    fun _ => onMem_spares (tqRmsnorm_leaves O h src _ eps)

theorem tqMatvecLoop_spares {out : TqBuf} {d : Nat} (h : ∀ i < d, .f out i ∈ Spared M l)
    (wOff dtype rowBytes nb rowsPerTile : Nat) (acts : TqQuant) :
    ∀ fuel i, Spares l
      (tqMatvecLoop O st out wOff dtype rowBytes nb d rowsPerTile acts fuel i :
        Tq (TqMachine M) Unit)
  | 0, _ => fun _ => rfl
  | fuel + 1, i => by
      unfold tqMatvecLoop
      split
      · refine (onTile_spares _).bind fun p => ?_
        split
        · exact fail_spares _
        · refine (onTile_spares _).bind fun ws => ?_
          refine (onMem_spares (tqDotRows_leaves O (fun r hr => h (i + r) ?_) _ _ _ _ _)).bind
            fun _ => ?_
          · have hle := Nat.min_le_left (d - i) rowsPerTile
            omega
          · exact tqMatvecLoop_spares h wOff dtype rowBytes nb rowsPerTile acts fuel _
      · exact fun _ => rfl

theorem tqMatvec_spares {out : TqBuf} {d : Nat} (h : ∀ i < d, .f out i ∈ Spared M l)
    (wOff dtype n : Nat) (acts : TqQuant) :
    Spares l (tqMatvec O st out wOff dtype n d acts : Tq (TqMachine M) Unit) := by
  unfold tqMatvec
  dsimp only
  split
  · exact fail_spares _
  · refine Spares.bind (fun _ => rfl) fun _ => ?_
    split
    · split
      · exact fail_spares _
      · split
        · exact fail_spares _
        · refine (onTile_spares _).bind
            fun ws => onMem_spares (tqDotRows_leaves O (fun r hr => ?_) _ _ _ _ _)
          rw [Nat.zero_add]
          exact h r hr
    · split
      · exact fail_spares _
      · exact tqMatvecLoop_spares O st h _ _ _ _ _ acts _ _

end Store

/-! ## Parts of a step -/

section Step
variable (st : TqStore) {m : TqModel} {rt : TqRuntime} (h : live m rt ∩ activations ⊆ Spared M l)
include h

theorem quantize_spares (src : TqBuf) {out : TqQuant} {n : Nat}
    (hn : n / tqGroupSize = out.elements m) :
    Spares l (onMem (tqQuantizeMem O src out n) : Tq (TqMachine M) Unit) :=
  onMem_spares
    (tqQuantizeMem_leaves O (fun b hb => h ⟨(hn ▸ hb : b < out.elements m), trivial⟩) src)

/-- The heads of a position. -/
theorem attendHeads_spares (hm : m.Sized) (layer : Nat) {pos : Nat} (hpos : pos < rt.maxSeq)
    (invSqrtHs : F) : Spares l
      (onMem fun mem =>
        forUp m.nHeads (fun h mem => tqAttendHead O m rt layer pos h invSqrtHs mem) mem :
          Tq (TqMachine M) Unit) := by
  refine onMem_spares (Leaves.forUp fun head hhead => ?_)
  refine tqAttendHead_leaves O m rt (fun t ht => h ⟨?_, trivial⟩) (fun i hi => h ⟨?_, trivial⟩)
    layer invSqrtHs
  · exact att_live hhead (by omega)
  · have hend := head_le (w := m.headSize) hhead
    rw [hm.heads] at hend
    show head * m.headSize + i < m.dim
    omega

/-- **The feed-forward half.** -/
theorem tqFeedForward_spares (layer : Nat) :
    Spares l (tqFeedForward O st m layer : Tq (TqMachine M) Unit) := by
  have hbuf : ∀ b : TqBuf, (∀ i, .f b i ∈ activations) →
      ∀ i < b.elements m rt, .f b i ∈ Spared M l :=
    fun b hb i hi => h ⟨hi, hb i⟩
  unfold tqFeedForward
  dsimp only
  refine (tqNorm_spares O st (hbuf .xb fun _ => trivial) .x _ _).bind fun _ => ?_
  refine (quantize_spares O h .xb rfl).bind fun _ => ?_
  refine (tqMatvec_spares O st (hbuf .hb fun _ => trivial) _ _ _ _).bind fun _ => ?_
  refine (tqMatvec_spares O st (hbuf .hb3 fun _ => trivial) _ _ _ _).bind fun _ => ?_
  refine (onMem_spares (tqSwiglu_leaves O (hbuf .hb fun _ => trivial))).bind fun _ => ?_
  refine (quantize_spares O h .hb rfl).bind fun _ => ?_
  refine (tqMatvec_spares O st (hbuf .xb2 fun _ => trivial) _ _ _ _).bind fun _ => ?_
  exact onMem_spares (tqAddInto_leaves O (hbuf .x fun _ => trivial) .xb2)

end Step

end Leaves

end TinyLlm
