/-
# `TinyLlm.Convert.Rope` — the rotary layout of an imported checkpoint

A checkpoint in the Hugging Face layout rotates element `i` of a head against
element `i + head_size / 2`; the device rotates `2 * i` against `2 * i + 1`.
`permute_reverse` reorders the rows of the query and key weights at export, so
that what the device rotates is the same pair.  Element `2 * i + b` of a head
on the device is element `b * (head_size / 2) + i` of the checkpoint, before
the rotation (`permuteReverse_get`) and after it (`ropeHeads_permuted`), so a
dot product of two heads is the same sum in another order.
-/
import TinyLlm.Lib.NdArray
import TinyLlm.Forward.Ops
import Mathlib.Algebra.BigOperators.Ring.Finset
import Mathlib.Algebra.Ring.Int.Defs

namespace TinyLlm

open Finset Loop

/-! ## The permutation -/

def permuteReverse {α : Type*} (w : NdArray α) (nHeads dim1 dim2 : Nat) : Option (NdArray α) :=
  if nHeads = 0 then none
  else do
    let w ← w.reshape [nHeads, 2, dim1 / nHeads / 2, dim2]
    (w.transpose [0, 2, 1, 3]).reshape [dim1, dim2]

/-- **The rows of a head**: the halves are interleaved. -/
theorem permuteReverse_get {α : Type*} {w : NdArray α} {nHeads half dim : Nat}
    (hpos : 0 < nHeads) (hshape : w.shape = [nHeads * (2 * half), dim]) :
    ∃ P, permuteReverse w nHeads (nHeads * (2 * half)) dim = some P ∧
      ∀ h < nHeads, ∀ i < half, ∀ b < 2, ∀ c < dim,
        P.get [h * (2 * half) + (2 * i + b), c] = w.get [h * (2 * half) + (b * half + i), c] := by
  have hhalf : nHeads * (2 * half) / nHeads / 2 = half := by
    rw [Nat.mul_div_cancel_left _ hpos, Nat.mul_div_cancel_left _ Nat.two_pos]
  have hsplit : [nHeads, 2, half, dim].prod = w.shape.prod := by
    rw [hshape]
    simp only [List.prod_cons, List.prod_nil]
    ring
  have hjoin : [nHeads * (2 * half), dim].prod = [nHeads, half, 2, dim].prod := by
    simp only [List.prod_cons, List.prod_nil]
    ring
  set w4 : NdArray α := ⟨[nHeads, 2, half, dim], w.data⟩ with hw4
  refine ⟨⟨[nHeads * (2 * half), dim], (w4.transpose [0, 2, 1, 3]).data⟩, ?_, ?_⟩
  · rw [permuteReverse, if_neg (Nat.ne_of_gt hpos), hhalf, NdArray.reshape_eq_some hsplit]
    exact NdArray.reshape_eq_some hjoin
  · intro h hh i hi b hb c hc
    have hwithin : NdArray.Within [nHeads, half, 2, dim] [h, i, b, c] :=
      .cons hh (.cons hi (.cons hb (.cons hc .nil)))
    have hplace : NdArray.ravel [nHeads * (2 * half), dim] [h * (2 * half) + (2 * i + b), c]
        = NdArray.ravel [nHeads, half, 2, dim] [h, i, b, c] := by
      simp only [NdArray.ravel, List.prod_cons, List.prod_nil]
      ring
    have hmoved := w4.get_transpose [0, 2, 1, 3] hwithin
    unfold NdArray.get at hmoved ⊢
    rw [hshape, hplace]
    refine hmoved.trans (congrArg w.data ?_)
    show NdArray.ravel [nHeads, 2, half, dim] [h, b, i, c] = _
    simp only [NdArray.ravel, List.prod_cons, List.prod_nil]
    ring

/-! ## The rotation of the device -/

section Rotation
variable {F : Type} (O : FloatOps F)

@[simp] theorem f_put (mem : TqMem F) (b b' : TqBuf) (i j : Nat) (x : F) :
    (mem.put (.f b i) x).f b' j = if b' = b ∧ j = i then x else mem.f b' j := by
  rcases Decidable.em (TqLoc.f b' j = TqLoc.f b i) with heq | hne
  · cases heq
    rw [if_pos ⟨rfl, rfl⟩]
    exact Function.update_self (TqLoc.f b i) _ mem
  · rw [if_neg (by rintro ⟨rfl, rfl⟩; exact hne rfl)]
    exact Function.update_of_ne hne _ mem

@[simp] theorem f_setBuf (mem : TqMem F) (b b' : TqBuf) (a : Nat → F) (i : Nat) :
    (mem.setBuf b a).f b' i = if b' = b then a i else mem.f b' i :=
  rfl

/-- The rotated pair `i` of the head at `base`, from the values in `mem`. -/
structure Rotated (v : TqBuf) (base i : Nat) (mem mem' : TqMem F) : Prop where
  even : mem'.f v (base + 2 * i) =
    O.sub (O.mul (mem.f v (base + 2 * i)) (mem.f .ropeCos i))
      (O.mul (mem.f v (base + 2 * i + 1)) (mem.f .ropeSin i))
  odd : mem'.f v (base + 2 * i + 1) =
    O.add (O.mul (mem.f v (base + 2 * i)) (mem.f .ropeSin i))
      (O.mul (mem.f v (base + 2 * i + 1)) (mem.f .ropeCos i))

variable {O} {v : TqBuf}

/-- A rotated pair stays as it is, whatever becomes of the rest. -/
theorem Rotated.keep {base i : Nat} {mem mem₁ mem₂ : TqMem F} (h : Rotated O v base i mem mem₁)
    (heven : mem₂.f v (base + 2 * i) = mem₁.f v (base + 2 * i))
    (hodd : mem₂.f v (base + 2 * i + 1) = mem₁.f v (base + 2 * i + 1)) :
    Rotated O v base i mem mem₂ :=
  ⟨heven.trans h.even, hodd.trans h.odd⟩

/-- One head: its pairs are rotated and nothing else is touched. -/
theorem rotateHead (hcos : v ≠ .ropeCos) (hsin : v ≠ .ropeSin) (base : Nat) (mem : TqMem F)
    (n : Nat) :
    let mem' := forUp n (fun i mem => tqRotatePair O v base i mem) mem
    (∀ i < n, Rotated O v base i mem mem') ∧
      (∀ j, j < base ∨ base + 2 * n ≤ j → mem'.f v j = mem.f v j) ∧
      (∀ b, b ≠ v → ∀ j, mem'.f b j = mem.f b j) := by
  refine forUp_inv (I := fun k mem' => (∀ i < k, Rotated O v base i mem mem') ∧
    (∀ j, j < base ∨ base + 2 * k ≤ j → mem'.f v j = mem.f v j) ∧
    (∀ b, b ≠ v → ∀ j, mem'.f b j = mem.f b j)) ⟨nofun, fun _ _ => rfl, fun _ _ _ => rfl⟩ ?_
  rintro k - mem' ⟨hdone, hrest, hother⟩
  refine ⟨fun i hi => ?_, fun j hj => ?_, fun b hb j => ?_⟩
  · rcases Nat.lt_succ_iff_lt_or_eq.mp hi with hlt | rfl
    · refine (hdone i hlt).keep ?_ ?_
      · simp only [tqRotatePair, memory_f, memory_put, f_put]
        rw [if_neg (by omega), if_neg (by omega)]
      · simp only [tqRotatePair, memory_f, memory_put, f_put]
        rw [if_neg (by omega), if_neg (by omega)]
    · have h₀ := hrest (base + 2 * i) (by omega)
      have h₁ := hrest (base + 2 * i + 1) (by omega)
      have hc := hother .ropeCos hcos.symm i
      have hs := hother .ropeSin hsin.symm i
      constructor
      · simp only [tqRotatePair, memory_f, memory_put, f_put, h₀, h₁, hc, hs]
        rw [if_neg (by omega), if_pos ⟨trivial, trivial⟩]
      · simp only [tqRotatePair, memory_f, memory_put, f_put, h₀, h₁, hc, hs, and_self, if_true]
  · simp only [tqRotatePair, memory_f, memory_put, f_put]
    rw [if_neg (by omega), if_neg (by omega)]
    exact hrest j (by omega)
  · simp only [tqRotatePair, memory_f, memory_put, f_put, hb, false_and, if_false]
    exact hother b hb j

/-- **All heads**: `tq_rope_apply` rotates every pair once. -/
theorem tqRopeApply_rotated (hcos : v ≠ .ropeCos) (hsin : v ≠ .ropeSin) (m : TqModel)
    (mem : TqMem F) {n h i : Nat} (hh : h < n) (hi : i < m.headSize / 2) :
    Rotated O v (h * m.headSize) i mem (tqRopeApply O m v (n * m.headSize) mem) := by
  have hrounds : (n * m.headSize + m.headSize - 1) / m.headSize = n := by
    have hpos : 0 < m.headSize := by omega
    rw [Nat.add_sub_assoc hpos, Nat.mul_comm, Nat.mul_add_div hpos,
      Nat.div_eq_of_lt (Nat.sub_lt hpos Nat.one_pos), Nat.add_zero]
  have hinv := forUp_inv (n := n) (s := mem)
    (f := fun h mem => forUp (m.headSize / 2)
      (fun i mem => tqRotatePair O v (h * m.headSize) i mem) mem)
    (I := fun k mem' =>
      (∀ h < k, ∀ i < m.headSize / 2, Rotated O v (h * m.headSize) i mem mem') ∧
      (∀ j, k * m.headSize ≤ j → mem'.f v j = mem.f v j) ∧
      (∀ b, b ≠ v → ∀ j, mem'.f b j = mem.f b j)) ⟨nofun, fun _ _ => rfl, fun _ _ _ => rfl⟩ ?_
  · unfold tqRopeApply
    rw [hrounds]
    exact hinv.1 h hh i hi
  rintro k - mem₁ ⟨hdone, hrest, hother⟩
  obtain ⟨hnew, hout, hbuf⟩ := rotateHead (O := O) hcos hsin (k * m.headSize) mem₁ (m.headSize / 2)
  refine ⟨fun h hh i hi => ?_, fun j hj => ?_, fun b hb j => (hbuf b hb j).trans (hother b hb j)⟩
  · rcases Nat.lt_succ_iff_lt_or_eq.mp hh with hlt | rfl
    · have hend : (h + 1) * m.headSize ≤ k * m.headSize := Nat.mul_le_mul_right _ hlt
      rw [Nat.succ_mul] at hend
      exact (hdone h hlt i hi).keep (hout _ (by omega)) (hout _ (by omega))
    · obtain ⟨heven, hodd⟩ := hnew i hi
      have h₀ := hrest (h * m.headSize + 2 * i) (by omega)
      have h₁ := hrest (h * m.headSize + 2 * i + 1) (by omega)
      rw [h₀, h₁, hother _ hcos.symm, hother _ hsin.symm] at heven hodd
      exact ⟨heven, hodd⟩
  · rw [Nat.succ_mul] at hj
    rw [hout j (by omega)]
    exact hrest j (by omega)

/-- What `tq_rope_apply` makes of `x` in the buffer `v`, with the tables `cos`
and `sin` and whatever else the memory holds. -/
def ropeHeads (O : FloatOps F) (m : TqModel) (v : TqBuf) (n : Nat) (cos sin x : Nat → F)
    (mem : TqMem F) : Nat → F :=
  (tqRopeApply O m v n (((mem.setBuf v x).setBuf .ropeCos cos).setBuf .ropeSin sin)).f v

end Rotation

/-! ## The rotation of the checkpoint -/

section Scores
variable {R : Type} [CommRing R]

/-- The operations compute exactly. -/
structure FloatOps.Exact (O : FloatOps R) : Prop where
  add : ∀ a b, O.add a b = a + b
  sub : ∀ a b, O.sub a b = a - b
  mul : ∀ a b, O.mul a b = a * b

/-- Element `j` of the head at `base` after the split-half rotation. -/
def rotateHalf (half : Nat) (cos sin x : Nat → R) (base j : Nat) : R :=
  if j < half then x (base + j) * cos j - x (base + j + half) * sin j
  else x (base + j) * cos (j - half) + x (base + j - half) * sin (j - half)

/-- `W x`. -/
def matvec (W : NdArray R) (dim : Nat) (x : Nat → R) (r : Nat) : R :=
  ∑ c ∈ range dim, W.get [r, c] * x c

variable {O : FloatOps R} {m : TqModel} {half : Nat} {v : TqBuf}

/-- **Rotating the permuted rows** is permuting the rotated ones. -/
theorem ropeHeads_permuted (hO : O.Exact) (hhs : m.headSize = 2 * half) (hcos : v ≠ .ropeCos)
    (hsin : v ≠ .ropeSin) {n h : Nat} (hh : h < n) (cos sin : Nat → R) {x y : Nat → R}
    (mem : TqMem R)
    (hperm : ∀ i < half, ∀ b < 2,
      y (h * (2 * half) + (2 * i + b)) = x (h * (2 * half) + (b * half + i))) {i : Nat}
    (hi : i < half) :
    ropeHeads O m v (n * m.headSize) cos sin y mem (h * m.headSize + 2 * i)
        = rotateHalf half cos sin x (h * m.headSize) i ∧
      ropeHeads O m v (n * m.headSize) cos sin y mem (h * m.headSize + (2 * i + 1))
        = rotateHalf half cos sin x (h * m.headSize) (i + half) := by
  set mem₀ := ((mem.setBuf v y).setBuf .ropeCos cos).setBuf .ropeSin sin with hmem
  obtain ⟨heven, hodd⟩ := tqRopeApply_rotated (O := O) hcos hsin m mem₀ hh
    (show i < m.headSize / 2 by omega)
  have hv : ∀ j, mem₀.f v j = y j := fun j => by simp [hmem, hcos, hsin]
  have hc : mem₀.f .ropeCos i = cos i := by simp [hmem]
  have hs : mem₀.f .ropeSin i = sin i := by simp [hmem]
  have h₀ := hperm i hi 0 Nat.two_pos
  have h₁ := hperm i hi 1 Nat.one_lt_two
  rw [Nat.add_zero, Nat.zero_mul, Nat.zero_add] at h₀
  rw [Nat.one_mul] at h₁
  rw [hv, hv, hc, hs, hO.sub, hO.mul, hO.mul] at heven
  rw [hv, hv, hc, hs, hO.add, hO.mul, hO.mul] at hodd
  have hlow : ∀ j, h * m.headSize + j = h * (2 * half) + j := fun j => by rw [hhs]
  rw [Nat.add_assoc, hlow, hlow, h₀, h₁] at heven hodd
  have hfar : h * (2 * half) + i + half = h * (2 * half) + (half + i) := by omega
  have hback : h * (2 * half) + (i + half) - half = h * (2 * half) + i := by omega
  unfold rotateHalf ropeHeads
  rw [if_pos hi, if_neg (by omega), Nat.add_sub_cancel, hlow, hlow, hlow, hlow]
  constructor
  · rw [heven, hfar]
  · rw [hodd, hback, Nat.add_comm i half]
    ring

/-- A sum over a head, its halves interleaved. -/
theorem sum_interleaved {f g : Nat → R} {k : Nat}
    (h : ∀ i < k, f (2 * i) = g i ∧ f (2 * i + 1) = g (i + k)) :
    ∑ j ∈ range (2 * k), f j = ∑ j ∈ range (2 * k), g j := by
  have hpairs : ∀ n, ∑ j ∈ range (2 * n), f j = ∑ i ∈ range n, (f (2 * i) + f (2 * i + 1)) := by
    intro n
    induction n with
    | zero => rfl
    | succ n ih =>
        rw [Nat.mul_succ, sum_range_succ, sum_range_succ, ih, sum_range_succ]
        ring
  calc ∑ j ∈ range (2 * k), f j = ∑ i ∈ range k, (g i + g (i + k)) := by
        rw [hpairs k]
        exact sum_congr rfl fun i hi => by
          obtain ⟨h₀, h₁⟩ := h i (mem_range.mp hi)
          rw [h₀, h₁]
    _ = ∑ i ∈ range k, g i + ∑ i ∈ range k, g (k + i) := by
        rw [sum_add_distrib]
        exact congrArg _ (sum_congr rfl fun i _ => by rw [Nat.add_comm])
    _ = ∑ j ∈ range (2 * k), g j := by rw [Nat.two_mul, sum_range_add]

/-- **The rows of a projection** are permuted with the weights. -/
theorem permuteReverse_matvec {W : NdArray R} {nHeads dim : Nat} (hpos : 0 < nHeads)
    (hshape : W.shape = [nHeads * (2 * half), dim]) :
    ∃ P, permuteReverse W nHeads (nHeads * (2 * half)) dim = some P ∧
      ∀ x, ∀ h < nHeads, ∀ i < half, ∀ b < 2,
        matvec P dim x (h * (2 * half) + (2 * i + b))
          = matvec W dim x (h * (2 * half) + (b * half + i)) := by
  obtain ⟨P, hP, hget⟩ := permuteReverse_get hpos hshape
  refine ⟨P, hP, fun x h hh i hi b hb => sum_congr rfl fun c hc => ?_⟩
  rw [hget h hh i hi b hb c (mem_range.mp hc)]

/-- **The import keeps attention scores.**  The permuted weights on the device
give every query head and its key head the dot product that the checkpoint's
weights give them in its own layout. -/
theorem permuteReverse_scores (hO : O.Exact) (m : TqModel) (heven : 2 ∣ m.headSize)
    (hheads : 0 < m.nHeads) (hgroups : m.nKvHeads ∣ m.nHeads) (dim : Nat) (Wq Wk : NdArray R)
    (hq : Wq.shape = [m.nHeads * m.headSize, dim])
    (hk : Wk.shape = [m.nKvHeads * m.headSize, dim]) :
    ∃ Pq Pk, permuteReverse Wq m.nHeads (m.nHeads * m.headSize) dim = some Pq ∧
      permuteReverse Wk m.nKvHeads (m.nKvHeads * m.headSize) dim = some Pk ∧
      ∀ (cos sin : Nat → Nat → R) (x y : Nat → R) (pos pos' : Nat) (mem mem' : TqMem R),
        ∀ h < m.nHeads,
          ∑ j ∈ range m.headSize,
              ropeHeads O m .q (m.nHeads * m.headSize) (cos pos) (sin pos) (matvec Pq dim x) mem
                (h * m.headSize + j) *
              ropeHeads O m .kb (m.nKvHeads * m.headSize) (cos pos') (sin pos') (matvec Pk dim y)
                mem' (h / (m.nHeads / m.nKvHeads) * m.headSize + j)
            = ∑ j ∈ range m.headSize,
              rotateHalf (m.headSize / 2) (cos pos) (sin pos) (matvec Wq dim x)
                (h * m.headSize) j *
              rotateHalf (m.headSize / 2) (cos pos') (sin pos') (matvec Wk dim y)
                (h / (m.nHeads / m.nKvHeads) * m.headSize) j := by
  obtain ⟨half, hhs⟩ := heven
  obtain ⟨group, hgroup⟩ := hgroups
  have hkv : 0 < m.nKvHeads := Nat.pos_of_ne_zero fun hz => by
    rw [hgroup, hz, Nat.zero_mul] at hheads
    exact absurd hheads (Nat.lt_irrefl 0)
  have hmul : m.nHeads / m.nKvHeads = group := by rw [hgroup, Nat.mul_div_cancel_left _ hkv]
  have hhalf : m.headSize / 2 = half := by rw [hhs, Nat.mul_div_cancel_left _ Nat.two_pos]
  have hrowsq : m.nHeads * m.headSize = m.nHeads * (2 * half) := by rw [hhs]
  have hrowsk : m.nKvHeads * m.headSize = m.nKvHeads * (2 * half) := by rw [hhs]
  rw [hrowsq] at hq
  rw [hrowsk] at hk
  obtain ⟨Pq, hPq, hpermq⟩ := permuteReverse_matvec hheads hq
  obtain ⟨Pk, hPk, hpermk⟩ := permuteReverse_matvec hkv hk
  refine ⟨Pq, Pk, by rw [hrowsq]; exact hPq, by rw [hrowsk]; exact hPk, ?_⟩
  intro cos sin x y pos pos' mem mem' h hh
  have hkh : h / group < m.nKvHeads :=
    Nat.div_lt_of_lt_mul (by rwa [Nat.mul_comm, ← hgroup])
  have hlen : range m.headSize = range (2 * half) := by rw [hhs]
  rw [hmul, hhalf, hlen]
  refine sum_interleaved fun i hi => ?_
  obtain ⟨hq₀, hq₁⟩ := ropeHeads_permuted hO hhs (v := .q) nofun nofun hh (cos pos) (sin pos) mem
    (hpermq x h hh) hi
  obtain ⟨hk₀, hk₁⟩ := ropeHeads_permuted hO hhs (v := .kb) nofun nofun hkh (cos pos') (sin pos')
    mem' (hpermk y (h / group) hkh) hi
  exact ⟨by rw [hq₀, hk₀], by rw [hq₁, hk₁]⟩

end Scores

/-- Exact integers. -/
def intOps : FloatOps Int where
  ofBits w := w.toNat
  toBits i := UInt32.ofNat i.toNat
  ofInt i := i
  toInt i := i
  half := 0
  add a b := a + b
  sub a b := a - b
  mul a b := a * b
  div a b := a / b
  neg a := -a
  sqrt a := a
  lt a b := decide (a < b)
  beq a b := decide (a = b)
  tqExpf a := a
  tqPowf a _ := a
  tqCosf a := a
  tqSinf a := a

/-- Two query heads of four elements over one key head. -/
def twoHeads : TqModel :=
  { tqModelDims (TqHeader.decode []) with nHeads := 2, nKvHeads := 1, headSize := 4 }

/-- Three columns of integers in eight and four rows. -/
theorem permuteReverse_scores_two :
    ∃ Pq Pk, permuteReverse ⟨[8, 3], fun k => (k : Int)⟩ 2 8 3 = some Pq ∧
      permuteReverse ⟨[4, 3], fun k => (k : Int) * k⟩ 1 4 3 = some Pk ∧
      ∀ (cos sin : Nat → Nat → Int) (x y : Nat → Int) (pos pos' : Nat) (mem mem' : TqMem Int),
        ∀ h < 2,
          ∑ j ∈ range 4, ropeHeads intOps twoHeads .q 8 (cos pos) (sin pos) (matvec Pq 3 x) mem
              (h * 4 + j) *
            ropeHeads intOps twoHeads .kb 4 (cos pos') (sin pos') (matvec Pk 3 y) mem'
              (h / 2 * 4 + j)
            = ∑ j ∈ range 4,
              rotateHalf 2 (cos pos) (sin pos) (matvec ⟨[8, 3], fun k => (k : Int)⟩ 3 x) (h * 4) j *
              rotateHalf 2 (cos pos') (sin pos') (matvec ⟨[4, 3], fun k => (k : Int) * k⟩ 3 y)
                (h / 2 * 4) j :=
  permuteReverse_scores (O := intOps) ⟨fun _ _ => rfl, fun _ _ => rfl, fun _ _ => rfl⟩ twoHeads
    (by decide) (by decide) (by decide) 3 ⟨[8, 3], fun k => (k : Int)⟩
    ⟨[4, 3], fun k => (k : Int) * k⟩ rfl rfl

end TinyLlm
